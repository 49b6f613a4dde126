import StochasticGrammar.Proofs.Faithful
import StochasticGrammar.Proofs.Recognition
import StochasticGrammar.Proofs.Scores

/-!
# The best parse is the best one

In exact arithmetic the parse that is read from a chart has the greatest probability among all
parses by the rules that the grammar was given, however many there are: empty rules and cycles of
unit rules make them infinitely many. Every derivation of some tokens, its empty parts taken out, is
one that the chart has moved over at no smaller score.

> `exists_production`: a derivation with its empty parts taken out is one by a production.

> `Reads.value_le`: what is read from a chart scores below every valuation that is closed under its
> steps.

> `Linked.movesOver`: a chart moves over every derivation at no smaller score.
-/

namespace StochasticGrammar.Parser

variable {K W : Type} [Field K] [LinearOrder K] [IsStrictOrderedRing K] [DecidableEq W]
  {solver : Solver K} {G : Grammar K W} {goal : Category} {tokens : List Payload}
  {columns : List (Column K W)} {value : W → K}

/-! ## Taking empty parts out -/

/-- The places of children that are empty, and the other children. -/
structure TakenOut (G : Grammar K W) (n : Nat) (ds : List (Derivation K W))
    (o : List (Category × Nat)) (found : List (Derivation K W)) : Prop where
  sublist : o.Sublist ((ds.map Derivation.root).zipIdx n)
  nullable : ∀ place ∈ o, G.isNullable place.1 = true
  roots : found.map Derivation.root
    = (((ds.map Derivation.root).zipIdx n).filter fun place => !(o.map (·.2)).contains place.2).map
        (·.1)
  mem : ∀ d ∈ found, d ∈ ds ∧ d.tokens ≠ []
  tokens : found.flatMap Derivation.tokens = ds.flatMap Derivation.tokens
  chances_le : chances ds ≤ chances found * (o.map fun place => G.bestEmptyProbability place.1).prod

theorem chances_nonneg (hG : G.Compiled solver) {ds : List (Derivation K W)}
    (h : ∀ d ∈ ds, d.IsSourceParse G) : 0 ≤ chances ds := by
  refine List.prod_nonneg fun w hw => ?_
  obtain ⟨d, hd, rfl⟩ := List.mem_map.mp hw
  exact weight_nonneg hG (h d hd)

omit [IsStrictOrderedRing K] [Field K] [LinearOrder K] [DecidableEq W] in
/-- The places of later children lie behind the first one. -/
theorem ne_of_mem_zipIdx_succ {ds : List (Derivation K W)} {n : Nat} {place : Category × Nat}
    (h : place ∈ (ds.map Derivation.root).zipIdx (n + 1)) : place.2 ≠ n :=
  Nat.ne_of_gt (List.le_snd_of_mem_zipIdx h)

/-- An empty child goes: it is no better than the choice for its category. -/
theorem TakenOut.drop (hG : G.Compiled solver) {n : Nat} {ds found : List (Derivation K W)}
    {o : List (Category × Nat)} (h : TakenOut G (n + 1) ds o found) {d : Derivation K W}
    (hempty : d.tokens = []) (hnull : G.isNullable d.root = true)
    (hle : d.weight Rule.probability ≤ G.bestEmptyProbability d.root) (hrest : 0 ≤ chances ds) :
    TakenOut G n (d :: ds) ((d.root, n) :: o) found := by
  refine ⟨?_, fun place hplace => ?_, ?_,
    fun e he => ⟨List.mem_cons_of_mem _ (h.mem e he).1, (h.mem e he).2⟩, ?_, ?_⟩
  · rw [List.map_cons, List.zipIdx_cons]
    exact h.sublist.cons_cons _
  · rcases List.mem_cons.mp hplace with rfl | hplace
    · exact hnull
    · exact h.nullable place hplace
  · rw [h.roots, List.map_cons, List.map_cons, List.zipIdx_cons, List.filter_cons, if_neg (by simp)]
    congr 1
    refine List.filter_congr fun place hplace => ?_
    have hne := ne_of_mem_zipIdx_succ hplace
    simp [hne]
  · rw [List.flatMap_cons, hempty, List.nil_append, h.tokens]
  · rw [chances_cons, List.map_cons, List.prod_cons]
    calc d.weight Rule.probability * chances ds
        ≤ G.bestEmptyProbability d.root *
            (chances found * (o.map fun place => G.bestEmptyProbability place.1).prod) :=
          mul_le_mul hle h.chances_le hrest (bestEmptyProbability_pos hG hnull).le
      _ = _ := by ring

omit [DecidableEq W] in
/-- Any other child stays. -/
theorem TakenOut.keep {n : Nat} {ds found : List (Derivation K W)} {o : List (Category × Nat)}
    (h : TakenOut G (n + 1) ds o found) {d : Derivation K W} (hne : d.tokens ≠ [])
    (hweight : 0 ≤ d.weight Rule.probability) : TakenOut G n (d :: ds) o (d :: found) := by
  refine ⟨?_, h.nullable, ?_, fun e he => ?_, ?_, ?_⟩
  · rw [List.map_cons, List.zipIdx_cons]
    exact h.sublist.cons _
  · rw [List.map_cons, List.map_cons, List.zipIdx_cons, List.filter_cons, if_pos, List.map_cons,
      h.roots]
    simp only [Bool.not_eq_true', Bool.eq_false_iff, Ne, List.contains_iff_mem]
    intro hn
    obtain ⟨place, hplace, heq⟩ := List.mem_map.mp hn
    exact ne_of_mem_zipIdx_succ (h.sublist.subset hplace) heq
  · rcases List.mem_cons.mp he with rfl | he
    · exact ⟨List.mem_cons_self, hne⟩
    · exact ⟨List.mem_cons_of_mem _ (h.mem e he).1, (h.mem e he).2⟩
  · rw [List.flatMap_cons, List.flatMap_cons, h.tokens]
  · rw [chances_cons, chances_cons, mul_assoc]
    exact mul_le_mul_of_nonneg_left h.chances_le hweight

theorem exists_takenOut (hG : G.Compiled solver) {ds : List (Derivation K W)}
    (hds : ∀ d ∈ ds, d.IsSourceParse G) (n : Nat) : ∃ o found, TakenOut G n ds o found := by
  induction ds generalizing n with
  | nil => exact ⟨[], [], .refl _,
      fun _ h => (by cases h), rfl, fun _ h => (by cases h), rfl, by simp⟩
  | cons d ds ih =>
    have hd := hds d List.mem_cons_self
    have hlater : ∀ e ∈ ds, e.IsSourceParse G := fun e he => hds e (List.mem_cons_of_mem _ he)
    obtain ⟨o, found, h⟩ := ih hlater (n + 1)
    by_cases hempty : d.tokens = []
    · obtain ⟨hnull, hle⟩ := weight_le_of_empty hG hd hempty
      exact ⟨(d.root, n) :: o, found, h.drop hG hempty hnull hle (chances_nonneg hG hlater)⟩
    · exact ⟨o, d :: found, h.keep hempty (weight_nonneg hG hd)⟩

omit [IsStrictOrderedRing K] [DecidableEq W] in
/-- What is taken out of a right-hand side can be left out of it, if not everything is empty. -/
theorem TakenOut.mem_omissions {rhs : List Category} {ds found : List (Derivation K W)}
    {o : List (Category × Nat)} (h : TakenOut G 0 ds o found)
    (hroots : ds.map Derivation.root = rhs) (ho : o ≠ [])
    (hne : ds.flatMap Derivation.tokens ≠ []) : o ∈ Omission.omissions G.nullable rhs := by
  have hsublist := h.sublist
  have hfound := h.roots
  rw [hroots] at hsublist hfound
  refine Omission.mem_omissions.mpr ⟨?_, List.length_pos_iff.mpr ho, fun hlen => ?_⟩
  · have hfilter := hsublist.filter fun place => G.isNullable place.1
    rw [List.filter_eq_self.mpr h.nullable] at hfilter
    exact hfilter
  · have hall : o = rhs.zipIdx := hsublist.eq_of_length (by rw [hlen, List.length_zipIdx])
    have hnil : found = [] := by
      rw [hall] at hfound
      rw [← List.map_eq_nil_iff (f := Derivation.root), hfound, List.map_eq_nil_iff,
        List.filter_eq_nil_iff]
      intro place hplace
      simp only [Bool.not_eq_true', Bool.not_eq_false, List.contains_iff_mem]
      exact List.mem_map_of_mem hplace
    rw [← h.tokens, hnil] at hne
    exact hne rfl

/-- **A derivation with its empty parts taken out is one by a production**, whose score makes up for
them. -/
theorem exists_production (hG : G.Compiled solver) (hexact : G.algebra.IsExact value)
    (hmass : ∀ x, G.isNullable x = true → 0 < G.emptyProbability x) {r : Rule K W}
    (hr : r ∈ G.rules) {ds : List (Derivation K W)} (hroots : ds.map Derivation.root = r.rhs)
    (hds : ∀ d ∈ ds, d.IsSourceParse G) (hne : ds.flatMap Derivation.tokens ≠ []) :
    ∃ q ∈ G.productionsOf r.lhs, ∃ found : List (Derivation K W),
      found.map Derivation.root = q.rule.rhs ∧ (∀ d ∈ found, d ∈ ds ∧ d.tokens ≠ []) ∧
      found.flatMap Derivation.tokens = ds.flatMap Derivation.tokens ∧
      r.probability * chances ds ≤ value q.best * chances found := by
  obtain ⟨o, found, h⟩ := exists_takenOut hG hds 0
  have hfound := h.roots
  rw [hroots] at hfound
  have hprob := (hG.probability_mem_unit hr).1.le
  by_cases ho : o = []
  · -- nothing is empty, and the rule itself is used
    subst ho
    have hrhs : r.rhs ≠ [] := by
      intro hnil
      rw [hnil, List.map_eq_nil_iff] at hroots
      rw [hroots] at hne
      exact hne rfl
    refine ⟨.ofRule r, hG.mem_productionsOf.mpr ⟨rfl, r, hr, hrhs, .whole⟩, found, ?_, h.mem,
      h.tokens, ?_⟩
    · show found.map Derivation.root = r.rhs
      simpa using hfound
    · have hle := h.chances_le
      rw [List.map_nil, List.prod_nil, mul_one] at hle
      rw [Production.ofRule, value_weight hG hexact hr]
      exact mul_le_mul_of_nonneg_left hle hprob
  · have hmem := h.mem_omissions hroots ho hne
    have hscaled : 0 < Omission.scaled G.emptyProbability r o := by
      refine mul_pos (hG.probability_mem_unit hr).1 ?_
      rw [Probability.prod_eq]
      refine List.prod_pos fun w hw => ?_
      obtain ⟨place, hplace, rfl⟩ := List.mem_map.mp hw
      exact hmass _ (h.nullable place hplace)
    have hexp := hG.expansion_variant hr hmem (not_le.mpr hscaled)
    refine ⟨_, hG.mem_productionsOf.mpr ⟨rfl, r, hexp⟩, found, hfound, h.mem, h.tokens, ?_⟩
    rw [value_variant hG hexact hr hmem]
    calc r.probability * chances ds
        ≤ r.probability *
            (chances found * (o.map fun place => G.bestEmptyProbability place.1).prod) :=
          mul_le_mul_of_nonneg_left h.chances_le hprob
      _ = _ := by ring

/-! ## Moving over derivations -/

/-- A state that waits for the category of a derivation moves over it, and its score drops by no
more than the weight of the derivation. -/
def MovesOver (tokens : List Payload) (columns : List (Column K W)) (value : W → K)
    (d : Derivation K W) : Prop :=
  ∀ {i : Nat} {s : State K W} {more : List Payload} {b : Backpointer K W},
    s ∈ statesAt columns i → s.next? = some d.root → tokens.drop i = d.tokens ++ more →
    (pastColumn columns i).best? s = some b →
    s.advance (i + d.tokens.length) ∈ statesAt columns (i + d.tokens.length) ∧
      ∃ t, (pastColumn columns (i + d.tokens.length)).best? (s.advance (i + d.tokens.length))
        = some t ∧ value b.score * d.weight Rule.probability ≤ value t.score

/-- A state moves over several derivations, one after the other. -/
theorem movesOver_list (hG : G.Compiled solver) (hsat : Saturated G goal tokens columns)
    {ds : List (Derivation K W)} (hds : ∀ d ∈ ds, d.IsSourceParse G)
    (hmoves : ∀ d ∈ ds, MovesOver tokens columns value d) {i : Nat} {s : State K W}
    {rest : List Category} {more : List Payload} {b : Backpointer K W} (hs : s ∈ statesAt columns i)
    (hrest : s.rule.rhs.drop s.dot = ds.map Derivation.root ++ rest)
    (hmore : tokens.drop i = ds.flatMap Derivation.tokens ++ more)
    (hb : (pastColumn columns i).best? s = some b) :
    State.found s ds.length (i + (ds.flatMap Derivation.tokens).length)
        ∈ statesAt columns (i + (ds.flatMap Derivation.tokens).length) ∧
      ∃ t, (pastColumn columns (i + (ds.flatMap Derivation.tokens).length)).best?
          (State.found s ds.length (i + (ds.flatMap Derivation.tokens).length)) = some t ∧
        value b.score * chances ds ≤ value t.score := by
  induction ds generalizing i s b with
  | nil =>
    obtain rfl : s.position = i := (hsat.fits hs).position
    refine ⟨hs, b, hb, ?_⟩
    rw [chances_nil, mul_one]
  | cons d ds ih =>
    obtain ⟨hnext, hrest'⟩ := of_drop_eq_cons hrest
    rw [List.flatMap_cons, List.append_assoc] at hmore
    obtain ⟨hmem, t, ht, hle⟩ := hmoves d List.mem_cons_self hs hnext hmore hb
    have hmore' : tokens.drop (i + d.tokens.length) = ds.flatMap Derivation.tokens ++ more :=
      drop_of_drop_eq_append hmore
    obtain ⟨hmem', t', ht', hle'⟩ := ih (fun e he => hds e (List.mem_cons_of_mem _ he))
      (fun e he => hmoves e (List.mem_cons_of_mem _ he)) hmem hrest' hmore' ht
    have hend : i + d.tokens.length + (ds.flatMap Derivation.tokens).length
        = i + ((d :: ds).flatMap Derivation.tokens).length := by
      rw [List.flatMap_cons, List.length_append]
      omega
    rw [hend, State.found_advance] at hmem' ht'
    refine ⟨hmem', t', ht', ?_⟩
    have hnonneg := chances_nonneg hG fun e he => hds e (List.mem_cons_of_mem _ he)
    rw [chances_cons, ← mul_assoc]
    exact (mul_le_mul_of_nonneg_right hle hnonneg).trans hle'

omit [IsStrictOrderedRing K] in
/-- A state that has found nothing yet has the score that its rule starts out with. -/
theorem Linked.begins_of_dot_eq (hlinked : Linked G goal tokens columns)
    (hsat : Saturated G goal tokens columns) {i : Nat} {s : State K W} (hs : s ∈ statesAt columns i)
    (hdot : s.dot = 0) :
    ∃ b, (pastColumn columns i).best? s = some b ∧ Begins G goal s.rule b.score := by
  obtain ⟨c, hc, rfl, hbest⟩ := best?_of_mem_states (hsat.shaped i).distinct hs
  obtain ⟨b, hb, hbegun⟩ := (hlinked i).begins hc hdot
  exact ⟨b, hbest.trans hb, hbegun.score⟩

omit [IsStrictOrderedRing K] in
/-- What waits for a complete state is scored at least with the product. -/
theorem Linked.value_settled (hexact : G.algebra.IsExact value)
    (hlinked : Linked G goal tokens columns) (hsat : Saturated G goal tokens columns) {k : Nat}
    {done s : State K W} {b d : Backpointer K W} (hopen : IsOpen k (pastColumn columns k) done)
    (hd : (pastColumn columns k).best? done = some d) (hs : s ∈ statesAt columns done.origin)
    (hnext : s.next? = some done.rule.lhs)
    (hb : (pastColumn columns done.origin).best? s = some b) :
    ∃ t, (pastColumn columns k).best? (s.advance k) = some t ∧
      value b.score * value d.score ≤ value t.score := by
  obtain ⟨p, hp, rfl, hbest⟩ := best?_of_mem_states (hsat.shaped done.origin).distinct hs
  have hwaiting : p ∈ (pastColumn columns done.origin).waiting done.rule.lhs := by
    refine List.mem_filter.mpr ⟨hp, ?_⟩
    rw [hnext]
    exact BEq.rfl
  obtain ⟨t, ht, hnot⟩ := (hlinked k).settled hopen d hd p hwaiting b (hbest.symm.trans hb)
  unfold Worse at hnot
  rw [hexact.lt, not_lt, hexact.mul] at hnot
  exact ⟨t, ht, hnot⟩

omit [IsStrictOrderedRing K] in
/-- A token is moved over at no smaller score. -/
theorem Linked.value_scanned (hexact : G.algebra.IsExact value)
    (hlinked : Linked G goal tokens columns) (hsat : Saturated G goal tokens columns) {k : Nat}
    {s : State K W} {token : Payload} {b : Backpointer K W} (hs : s ∈ statesAt columns k)
    (htoken : tokens[k]? = some token) (htakes : Takes G token s)
    (hb : (pastColumn columns k).best? s = some b) :
    ∃ t, (pastColumn columns (k + 1)).best? (s.advance (k + 1)) = some t ∧
      value b.score ≤ value t.score := by
  obtain ⟨p, hp, rfl, hbest⟩ := best?_of_mem_states (hsat.shaped k).distinct hs
  obtain ⟨t, ht, hnot⟩ := (hlinked (k + 1)).scanned rfl htoken hp htakes (hbest.symm.trans hb)
  unfold Worse at hnot
  rw [hexact.lt, not_lt] at hnot
  exact ⟨t, ht, hnot⟩

/-- A valuation of states that is closed under the steps of a derivation: what a rule begins with is
not above the value of the state, a token takes nothing away, and a phrase makes the product. -/
structure BoundsScores (G : Grammar K W) (goal : Category) (tokens : List Payload)
    (columns : List (Column K W)) (value : W → K) (v : Nat → State K W → K) : Prop where
  nonneg : ∀ {k s}, s ∈ statesAt columns k → 0 ≤ v k s
  begins : ∀ {k s w}, s ∈ statesAt columns k → s.dot = 0 → Begins G goal s.rule w → value w ≤ v k s
  scanned : ∀ {k s token}, s ∈ statesAt columns k → tokens[k]? = some token → Takes G token s →
    v k s ≤ v (k + 1) (s.advance (k + 1))
  completed : ∀ {k s done}, s ∈ statesAt columns done.origin → s.next? = some done.rule.lhs →
    IsOpen k (pastColumn columns k) done → v done.origin s * v k done ≤ v k (s.advance k)

/-- **The score of a derivation is below every valuation that is closed under its steps.** -/
theorem Reads.value_le (hG : G.Compiled solver) (hexact : G.algebra.IsExact value)
    (hlinked : Linked G goal tokens columns) (hsat : Saturated G goal tokens columns)
    {v : Nat → State K W → K} (hv : BoundsScores G goal tokens columns value v) {k : Nat}
    {s : State K W} {ds : List (Derivation K W)} (h : Reads G tokens columns k s ds)
    {b : Backpointer K W} (hb : (pastColumn columns k).best? s = some b) :
    value b.score ≤ v k s := by
  induction h generalizing b with
  | begins hs hdot =>
    obtain ⟨b', hb', hbegins⟩ := hlinked.begins_of_dot_eq hsat hs hdot
    rw [hb] at hb'
    cases hb'
    exact hv.begins hs hdot hbegins
  | @scanned k p b' c token ds hs hp hpb htoken hc hterm haccepts hbest hds ih =>
    rw [hbest] at hb
    cases hb
    have hprev : value b'.score ≤ v k p.state :=
      ih (by rw [Column.best?_of_mem (hsat.shaped k).distinct hp]; exact hpb)
    exact hprev.trans (hv.scanned hds.mem htoken ⟨c, hc, hterm, haccepts⟩)
  | @completed k p b' d done w ds es all hs hp hpb hopen hd hw hle hbest hds hes hall ih₁ ih₂ =>
    rw [hbest] at hb
    cases hb
    obtain ⟨_, hmem, hnext⟩ :=
      mem_names_of_waiting hG hsat.goal_ne (hsat.shaped done.origin) (hsat.fits hes.mem) hp
    have hprev : value b'.score ≤ v done.origin p.state :=
      ih₁ (by rw [Column.best?_of_mem (hsat.shaped done.origin).distinct hmem]; exact hpb)
    have hphrase : value d.score ≤ v k done := ih₂ hd
    have hnonneg : 0 ≤ value d.score := value_nonneg hG hexact ((hlinked k).attainable done d hd)
    calc value (G.algebra.mul b'.score w)
        = value b'.score * value d.score := by
          rw [hexact.mul, hlinked.value_completed hG hexact hsat hp hpb hopen hd hle hbest]
      _ ≤ v done.origin p.state * v k done := mul_le_mul hprev hphrase hnonneg (hv.nonneg hds.mem)
      _ ≤ v k (p.state.advance k) := hv.completed hds.mem hnext hopen

/-- **A chart moves over every derivation at no smaller score.** -/
theorem Linked.movesOver (hG : G.Compiled solver) (hexact : G.algebra.IsExact value)
    (hmass : ∀ x, G.isNullable x = true → 0 < G.emptyProbability x)
    (hlinked : Linked G goal tokens columns) (hsat : Saturated G goal tokens columns)
    {d : Derivation K W} (hd : d.IsSourceParse G) (hne : d.tokens ≠ []) :
    MovesOver tokens columns value d := by
  induction hd with
  | @leaf c token hterm haccepts =>
    intro i s more b hs hnext hmore hb
    have htoken : tokens[i]? = some token := (of_drop_eq_cons hmore).1
    have htakes : Takes G token s := ⟨c, hnext, hterm, haccepts⟩
    refine ⟨hsat.scan hs htoken htakes, ?_⟩
    rw [Derivation.weight_leaf, mul_one]
    exact hlinked.value_scanned hexact hsat hs htoken htakes hb
  | @node r ds hr hroots hds ih =>
    intro i s more b hs hnext hmore hb
    rw [Derivation.tokens_node] at hne hmore ⊢
    obtain ⟨q, hq, found, hfroots, hfmem, hftokens, hfle⟩ :=
      exists_production hG hexact hmass hr hroots hds hne
    rw [← hftokens] at hmore hne ⊢
    -- the production is predicted, moves over what is not empty, and is complete
    have hpred := hsat.predict hs hnext hq
    obtain ⟨b₀, hb₀, hbegins⟩ := hlinked.begins_of_dot_eq hsat hpred rfl
    have hscore := Begins.eq_best hG hq hbegins
    obtain ⟨hdone, t, ht, hle⟩ := movesOver_list hG hsat (fun d hd => hds d (hfmem d hd).1)
      (fun d hd => ih d (hfmem d hd).1 (hfmem d hd).2) hpred
      (show q.rule.rhs = found.map Derivation.root ++ [] by rw [hfroots, List.append_nil]) hmore hb₀
    have hcomplete : (State.found (.predicted q.rule i) found.length
        (i + (found.flatMap Derivation.tokens).length)).isComplete = true := by
      simp [State.isComplete, State.found, State.predicted, ← hfroots]
    have hlt : i < i + (found.flatMap Derivation.tokens).length :=
      Nat.lt_add_of_pos_right (List.length_pos_iff.mpr hne)
    have hwaits : s.next? = some q.rule.lhs := by
      rw [hnext, (hG.isSound hq).lhs]
      rfl
    refine ⟨hsat.complete hdone hcomplete hlt hs hwaits, ?_⟩
    obtain ⟨t', ht', hle'⟩ :=
      hlinked.value_settled hexact hsat ⟨hdone, hcomplete, hlt⟩ ht hs hwaits hb
    refine ⟨t', ht', le_trans (mul_le_mul_of_nonneg_left ?_ ?_) hle'⟩
    · rw [weight_node_eq]
      rw [hscore] at hle
      exact hfle.trans hle
    · exact value_nonneg hG hexact ((hlinked i).attainable s b hb)

/-! ## Final states -/

omit [IsStrictOrderedRing K] in
/-- The start symbol begins with the start rule or as the empty start. -/
theorem Begins.start_cases (hG : G.Compiled solver) {r : Rule K W} {w : W} (h : Begins G goal r w)
    (hlhs : r.lhs = .start) :
    (r = startRule G.algebra goal ∧ w = G.algebra.one) ∨
      G.isNullable goal = true ∧ ∃ q, emptyStart G goal = .ok q ∧ r = q.rule ∧
        w = G.algebra.ofProbability (G.bestEmptyProbability goal) := by
  cases h with
  | start => exact Or.inl ⟨rfl, rfl⟩
  | @empty q hnull hq =>
    refine Or.inr ⟨hnull, q, hq, rfl, ?_⟩
    rw [emptyStart_eq_ok hq]
  | used hq => exact absurd hlhs (lhs_ne_start_of_used hG hq)

/-- What the start symbol begins with makes up for a category that is empty. -/
theorem Begins.value_start (hG : G.Compiled solver) (hexact : G.algebra.IsExact value)
    {r : Rule K W} {w : W} (h : Begins G goal r w) (hlhs : r.lhs = .start)
    {found all : List (Derivation K W)} (hall : Restores G r found all) :
    value w * chances found = chances all := by
  rcases h.start_cases hG hlhs with ⟨rfl, rfl⟩ | ⟨hnull, q, hq, rfl, rfl⟩
  · have heq : all = found := hall
    rw [hexact.one, one_mul, heq]
  · rw [emptyStart_eq_ok hq] at hall
    have hrestored : Restored G [0] [(goal, 0)] found all := hall
    rw [hrestored.chances_eq hG, hexact.ofProbability (bestEmptyProbability_pos hG hnull), mul_comm]
    simp

/-- Every parse of the tokens ends in a final state of no smaller score. -/
theorem Linked.exists_final (hG : G.Compiled solver) (hexact : G.algebra.IsExact value)
    (hmass : ∀ x, G.isNullable x = true → 0 < G.emptyProbability x) {chart : Chart K W}
    (hlinked : Linked G goal tokens chart.columns) (hsat : Saturated G goal tokens chart.columns)
    {d : Derivation K W} (hd : d.IsParseOf G (· ∈ G.rules) goal tokens) :
    ∃ s ∈ finalStates chart tokens.length, ∃ b,
      (chart.column tokens.length).best? s = some b ∧
      d.weight Rule.probability ≤ value b.score := by
  by_cases hne : tokens = []
  · -- the category is empty, and the empty start is as good as any derivation of that
    subst hne
    obtain ⟨hnull, hle⟩ := weight_le_of_empty hG hd.isParse hd.tokens_eq
    rw [hd.root_eq] at hnull hle
    obtain ⟨q, hq, hmem⟩ := hsat.empty hnull
    have hempty := isEmptyStart_of_emptyStart hq
    obtain ⟨b, hb, hbegins⟩ := hlinked.begins_of_dot_eq hsat hmem rfl
    refine ⟨_, mem_finalStates.mpr ⟨hmem, ?_, hempty.lhs, rfl⟩, b, hb, ?_⟩
    · unfold State.isComplete
      rw [hempty.rhs]
      rfl
    · rcases hbegins.start_cases hG hempty.lhs with ⟨hrule, _⟩ | ⟨_, _, _, _, hscore⟩
      · have hrhs := hempty.rhs
        rw [hrule] at hrhs
        cases hrhs
      · rw [hscore, hexact.ofProbability (bestEmptyProbability_pos hG hnull)]
        exact hle
  · -- the start rule moves over the derivation
    obtain ⟨b, hb, hbegins⟩ := hlinked.begins_of_dot_eq hsat hsat.seed rfl
    have hone : value b.score = 1 := by
      rcases hbegins.start_cases hG rfl with ⟨_, hscore⟩ | ⟨_, q, hq, hrule, _⟩
      · rw [hscore, hexact.one]
      · have hrhs := (isEmptyStart_of_emptyStart hq).rhs
        rw [State.predicted, ← hrule] at hrhs
        cases hrhs
    have hmoves : MovesOver tokens chart.columns value d :=
      hlinked.movesOver hG hexact hmass hsat hd.isParse (by rw [hd.tokens_eq]; exact hne)
    obtain ⟨hmem, t, ht, hle⟩ := hmoves hsat.seed (by rw [hd.root_eq]; rfl)
      (show tokens = d.tokens ++ [] by rw [hd.tokens_eq, List.append_nil]) hb
    rw [hd.tokens_eq, Nat.zero_add] at hmem ht
    rw [hone, one_mul] at hle
    exact ⟨_, mem_finalStates.mpr ⟨hmem, rfl, rfl, rfl⟩, t, ht, hle⟩

/-- The tree of a final state is a parse, and the score of the state is its weight. -/
theorem Linked.exists_parse (hG : G.Compiled solver) (hexact : G.algebra.IsExact value)
    {chart : Chart K W} (hlinked : Linked G goal tokens chart.columns)
    (hsat : Saturated G goal tokens chart.columns) {s : State K W}
    (hs : s ∈ finalStates chart tokens.length) :
    ∃ (d : Derivation K W) (b : Backpointer K W), d.IsParseOf G (· ∈ G.rules) goal tokens ∧
      bestTree G chart s = .ok d.toTree ∧ chart.best? s = some b ∧
      value b.score = d.weight Rule.probability := by
  obtain ⟨hs, hcomplete, hlhs, horigin⟩ := mem_finalStates.mp hs
  obtain ⟨ds, hds⟩ := hlinked.exists_reads hG hsat hs
  have hfits := hsat.fits hs
  have hreading := hds.isReading hG hsat
  obtain ⟨all, hall⟩ := hfits.rule.exists_restores hG (hreading.roots_of_isComplete hfits hcomplete)
  have htokens := hall.tokens_eq.trans hreading.tokens
  obtain ⟨d, rfl, hroot, hparse, htree⟩ := hds.tree_of_start hG hlinked hsat hcomplete hall hlhs
  obtain ⟨b, hb, _⟩ := hds.children_chart hG hlinked hsat
  rw [List.flatMap_singleton, horigin, span_zero, List.take_length] at htokens
  refine ⟨d, b, ⟨hparse, hroot, htokens⟩, htree, hb, ?_⟩
  rw [Chart.best?, hfits.position] at hb
  obtain ⟨w, hw, hvalue⟩ := hds.value_eq hG hexact hlinked hsat hb
  rw [hvalue, hw.value_start hG hexact hlhs hall, chances_cons, chances_nil, mul_one]

/-! ## The best parse -/

omit [IsStrictOrderedRing K] in
/-- Nothing but a faulty pattern keeps tokens from being parsed. -/
theorem exists_chart (hgoal : goal ≠ .start) (hmass : G.isNullable goal = true →
      0 < G.emptyProbability goal ∧ G.emptyProbability goal ≤ 1)
    (hpattern : ∀ e, parse G goal tokens ≠ .error (.pattern e)) :
    ∃ chart, parse G goal tokens = .ok chart := by
  obtain ⟨p, hp⟩ := exists_create hgoal hmass
  cases hrun : p.run tokens with
  | error e =>
    refine absurd ?_ (hpattern e)
    unfold parse
    rw [hp]
    show (p.run tokens).mapError ParseError.pattern >>= _ = _
    rw [hrun]
    rfl
  | ok p' => exact ⟨_, parse_eq_ok_iff.mpr ⟨p, p', hp, hrun, rfl⟩⟩

omit [IsStrictOrderedRing K] in
/-- On derivations by given rules, multiplying up scores is multiplying up probabilities. -/
theorem weight_eq_probability (hG : G.Compiled solver) (hexact : G.algebra.IsExact value)
    {d : Derivation K W} (hd : d.IsSourceParse G) :
    d.weight (fun r => value r.weight) = d.weight Rule.probability := by
  induction hd with
  | leaf => rfl
  | @node r ds hr _ _ ih =>
    rw [Derivation.weight_node, Derivation.weight_node, value_weight hG hexact hr,
      List.map_congr_left ih]

/-- **The best parse has the greatest weight of all parses by the given rules.** It is there if and
only if there is a parse at all. -/
theorem best_parse_is_optimal {A : ScoreAlgebra K W} (hG : G.Built solver A)
    (hexact : A.IsExact value)
    (hmass : ∀ x, G.isNullable x = true → 0 < G.emptyProbability x ∧ G.emptyProbability x ≤ 1)
    (hgoal : goal ≠ .start) (hpattern : ∀ e, parse G goal tokens ≠ .error (.pattern e)) :
    ∃ chart best, parse G goal tokens = .ok chart ∧
      bestParse G chart tokens.length = .ok best ∧
      (best = none ↔ ¬ ∃ d : Derivation K W, d.IsParseOf G (· ∈ G.rules) goal tokens) ∧
      ∀ tree score, best = some (tree, score) →
        (∃ d : Derivation K W, d.IsParseOf G (· ∈ G.rules) goal tokens ∧ d.toTree = tree ∧
          value score = d.weight fun r => value r.weight) ∧
        ∀ d : Derivation K W, d.IsParseOf G (· ∈ G.rules) goal tokens →
          (d.weight fun r => value r.weight) ≤ value score := by
  obtain ⟨hC, rfl⟩ := hG.compiled
  obtain ⟨chart, hchart⟩ := exists_chart hgoal (hmass goal) hpattern
  have hcharted := parse_eq_ok hchart
  have hsat := hcharted.saturated hC
  have hlinked := hcharted.linked hC (neverRaises_of_isExact hC hexact)
  have hfinal : ∀ d : Derivation K W, d.IsParseOf G (· ∈ G.rules) goal tokens →
      ∃ s ∈ finalStates chart tokens.length, ∃ b, (chart.column tokens.length).best? s = some b ∧
        d.weight Rule.probability ≤ value b.score :=
    fun d hd => hlinked.exists_final hC hexact (fun x hx => (hmass x hx).1) hsat hd
  unfold bestParse
  refine ⟨chart, ?_⟩
  rcases hsat.finalStates_cases hC tokens.length with hnone | ⟨s, hs⟩
  · rw [hnone] at hfinal ⊢
    refine ⟨none, hchart, rfl, ⟨fun _ => ?_, fun _ => rfl⟩, fun _ _ hbest => (by cases hbest)⟩
    rintro ⟨d, hd⟩
    obtain ⟨_, hmem, _⟩ := hfinal d hd
    cases hmem
  · have hmem : s ∈ finalStates chart tokens.length := by
      rw [hs]
      exact List.mem_singleton_self s
    obtain ⟨d, b, hd, htree, hb, hvalue⟩ := hlinked.exists_parse hC hexact hsat hmem
    rw [hs] at hfinal ⊢
    dsimp only
    rw [htree]
    simp only [hb, bind, Except.bind, pure, Except.pure]
    refine ⟨_, hchart, rfl, ⟨fun hbest => (by cases hbest), fun hno => absurd ⟨d, hd⟩ hno⟩,
      ?_⟩
    rintro tree score hbest
    cases hbest
    refine ⟨⟨d, hd, rfl, ?_⟩, fun e he => ?_⟩
    · rw [hvalue, weight_eq_probability hC hexact hd.isParse]
    · obtain ⟨t, ht, b', hb', hle⟩ := hfinal e he
      rw [List.mem_singleton.mp ht] at hb'
      rw [Chart.best?, (hsat.fits (mem_finalStates.mp hmem).1).position, hb'] at hb
      cases hb
      rw [weight_eq_probability hC hexact he.isParse]
      exact hle

set_option maxRecDepth 100000 in
/-- The best of the infinitely many parses of one token in the small grammar leaves the empty
category out and takes no unit rule: its probability is that of the first rule times that of being
empty. -/
theorem small_best_parse_is_optimal :
    ∃ G chart tree, smallGrammar = .ok G ∧ parse G (.name "S") [.text "a"] = .ok chart ∧
      bestParse G chart 1 = .ok (some (tree, 1 / 4)) ∧
      ∀ d : Derivation ℚ ℚ, d.IsParseOf G (· ∈ G.rules) (.name "S") [.text "a"] →
        d.weight Rule.weight ≤ 1 / 4 := by
  obtain ⟨G, chart, hG, hchart, hcheck⟩ := exists_smallChart [.text "a"]
    (fun G chart => decide (G.nullable = [.name "A"] ∧ 0 < G.emptyProbability (.name "A") ∧
        G.emptyProbability (.name "A") ≤ 1) &&
      (bestParse G chart 1).toOption.any (·.any fun found => decide (found.2 = 1 / 4)))
    (by decide +kernel)
  rw [Bool.and_eq_true, decide_eq_true_eq] at hcheck
  obtain ⟨⟨hnullable, hempty⟩, hbest⟩ := hcheck
  have hmass : ∀ x, G.isNullable x = true → 0 < G.emptyProbability x ∧
      G.emptyProbability x ≤ 1 := by
    intro x hx
    rw [Grammar.isNullable, hnullable, List.contains_cons, List.contains_nil, Bool.or_false] at hx
    rwa [← Category.eq_of_beq rfl (BEq.symm hx)]
  obtain ⟨_, best, hchart', hparse, _, hmax⟩ := best_parse_is_optimal (built_smallGrammar hG)
    isExact_linearScores hmass (fun h : Category.name "S" = .start => nomatch h)
    (fun e (he : parse G (.name "S") [.text "a"] = _) => by rw [hchart] at he; cases he)
  rw [hchart] at hchart'
  cases hchart'
  rw [show [Payload.text "a"].length = 1 from rfl] at hparse
  rw [hparse] at hbest
  match best, hbest with
  | some (tree, score), hbest =>
    have hscore : score = 1 / 4 := by simpa [Except.toOption] using hbest
    subst hscore
    exact ⟨G, chart, tree, hG, hchart, hparse, (hmax tree _ rfl).2⟩

end StochasticGrammar.Parser
