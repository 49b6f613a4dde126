import StochasticGrammar.Parser.Best
import StochasticGrammar.Proofs.Choices
import StochasticGrammar.Proofs.Derivation
import StochasticGrammar.Proofs.Shape

/-!
# Putting empty symbols back

A rule variant finds only the symbols that it has not left out. The others are put back as their
chosen empty derivations, so that the children are those of the rule that the variant came from.

> `exists_isEmptyBest`: every category that can be empty has a chosen empty derivation, and that is
> what the tree built for it shows.

> `ChartRule.exists_restores`: the children of every rule of a chart can be restored.
-/

namespace StochasticGrammar

/-! ## Empty derivations -/

namespace Empty

variable {P W : Type} {rules : List (Rule P W)}

/-- What a derivation of nothing derives can be empty. -/
theorem contains_nullable_root {d : Derivation P W} (h : d.Vanishes rules) :
    (nullable (RuleIndex.ofRules rules)).contains d.root = true := by
  induction h with
  | node hr hroots _ ih =>
    refine contains_nullable_lhs hr fun c hc => ?_
    obtain ⟨d, hd, hroot⟩ := exists_left_of_mem hroots hc
    exact contains_of_beq hroot (ih d hd)

/-- **What can be empty is what derives nothing.** -/
theorem contains_nullable_iff {x : Category} :
    (nullable (RuleIndex.ofRules rules)).contains x = true
      ↔ ∃ d : Derivation P W, d.Vanishes rules ∧ (d.root == x) = true := by
  constructor
  · refine nullable_induction (S := fun x => ∃ d : Derivation P W, d.Vanishes rules ∧
      (d.root == x) = true) (fun {a b} hab ha => ?_) (fun r hr hrhs => ?_) x
    · obtain ⟨d, hd, hroot⟩ := ha
      exact ⟨d, hd, BEq.trans hroot hab⟩
    · obtain ⟨ds, hds⟩ := exists_forall₂ hrhs
      refine ⟨.node r ds, .node hr (hds.imp fun c d hd => hd.2).flip fun d hd => ?_, BEq.rfl⟩
      obtain ⟨_, _, hvanishes, _⟩ := exists_left_of_mem hds hd
      exact hvanishes
  · intro hx
    obtain ⟨d, hd, hroot⟩ := hx
    exact contains_of_beq hroot (contains_nullable_root hd)

end Empty

namespace Parser

variable {P W : Type}

/-- A derivation that follows the chosen empty rules all the way down. -/
inductive IsEmptyBest (G : Grammar P W) : Derivation P W → Prop
  | node {r : Rule P W} {ds : List (Derivation P W)} (hr : G.bestEmptyRule? r.lhs = some r)
      (hroots : ds.map Derivation.root = r.rhs) (hds : ∀ d ∈ ds, IsEmptyBest G d) :
      IsEmptyBest G (.node r ds)

variable [DecidableEq P] [DecidableEq W] [Probability P] {solver : Solver P} {G : Grammar P W}

omit [DecidableEq P] [DecidableEq W] [Probability P] in
/-- A best empty derivation has no tokens. -/
theorem IsEmptyBest.tokens_eq {d : Derivation P W} (h : IsEmptyBest G d) : d.tokens = [] := by
  induction h with
  | node _ _ _ ih =>
    rw [Derivation.tokens_node]
    exact List.flatMap_eq_nil_iff.mpr ih

/-- It is a derivation by the rules that were given. -/
theorem IsEmptyBest.isSourceParse [UnitProducts P] (hG : G.Compiled solver) {d : Derivation P W}
    (h : IsEmptyBest G d) : d.IsSourceParse G := by
  induction h with
  | node hr hroots _ ih =>
    obtain ⟨⟨p, r⟩, hget, rfl⟩ := Option.map_eq_some_iff.mp hr
    exact .node (hG.chosen.backed hget).mem hroots ih

/-- A tree without leaves and the derivation that it shows, both down from some categories along the
choices. -/
inductive Unfolds (best : Empty.Choices P W) : Tree → Derivation P W → Prop
  | node {c : Category} {p : P} {r : Rule P W} {ts : List Tree} {ds : List (Derivation P W)}
      (hc : Table.get? best c = some (p, r)) (hcategories : ts.map Tree.category = r.rhs)
      (hts : List.Forall₂ (Unfolds best) ts ds) : Unfolds best (.node c ts) (.node r ds)

omit [DecidableEq P] [DecidableEq W] in
/-- **The tree of a category with a choice.** Choices do not lead back, so that no more depth is
needed than there are categories. -/
theorem exists_emptyTree {rules : List (Rule P W)} {best : Empty.Choices P W}
    (h : Empty.Chosen rules best) {names : List Category}
    (hnames : ∀ r ∈ rules, names.any (· == r.lhs) = true) {x : Category} {p : P}
    (hx : Empty.chance best x = some p) :
    ∃ tree d, tree.category = x ∧ Unfolds best tree d ∧ ∀ G : Grammar P W, G.choices = best →
      ∀ fuel, names.length < fuel → emptyTree G fuel x = .ok tree := by
  -- the induction is on the depth, which may lie below the number of categories
  suffices hdepth : ∃ tree d, tree.category = x ∧ Unfolds best tree d ∧
      ∀ G : Grammar P W, G.choices = best → ∀ fuel,
        depth (Empty.leads best) (names.map Category.form) x.form < fuel →
          emptyTree G fuel x = .ok tree by
    obtain ⟨tree, d, hroot, hunfolds, htree⟩ := hdepth
    refine ⟨tree, d, hroot, hunfolds, fun G hG fuel hfuel => htree G hG fuel ?_⟩
    have hle := depth_le (Empty.leads best) (names.map Category.form) x.form
    rw [List.length_map] at hle
    omega
  induction hn : depth (Empty.leads best) (names.map Category.form) x.form
    using Nat.strong_induction_on generalizing x p with
  | _ n ih =>
    obtain ⟨r, hget⟩ := Empty.chance_eq_some_iff.mp hx
    obtain ⟨_, _, ps, _, hps⟩ := h.backed hget
    have hchildren : ∀ y ∈ r.rhs, ∃ found : Tree × Derivation P W, found.1.category = y ∧
        Unfolds best found.1 found.2 ∧ ∀ G : Grammar P W, G.choices = best → ∀ fuel, n ≤ fuel →
          emptyTree G fuel y = .ok found.1 := by
      intro y hy
      obtain ⟨_, _, _, v, hv, _⟩ := exists_right_of_mem hps hy
      have hlt := h.depth_lt hnames hget hy
      rw [hn] at hlt
      obtain ⟨tree, d, hroot, hunfolds, htree⟩ := ih _ hlt hv rfl
      exact ⟨(tree, d), hroot, hunfolds, fun G hG fuel hfuel => htree G hG fuel (by omega)⟩
    obtain ⟨found, hfound⟩ := exists_forall₂ hchildren
    have hunfolds : List.Forall₂ (Unfolds best) (found.map Prod.fst) (found.map Prod.snd) := by
      rw [List.forall₂_map_left_iff, List.forall₂_map_right_iff, List.forall₂_same]
      intro t ht
      obtain ⟨y, _, _, hunfolds, _⟩ := exists_left_of_mem hfound ht
      exact hunfolds
    have hcategories : (found.map Prod.fst).map Tree.category = r.rhs := by
      rw [List.map_map]
      exact map_eq_of_forall₂ (hfound.imp fun y t ht => ht.1)
    refine ⟨.node x (found.map Prod.fst), .node r (found.map Prod.snd), rfl,
      .node hget hcategories hunfolds, fun G hG fuel hfuel => ?_⟩
    obtain ⟨fuel, rfl⟩ : ∃ m, fuel = m + 1 := ⟨fuel - 1, by omega⟩
    have htrees : r.rhs.mapM (emptyTree G fuel) = .ok (found.map Prod.fst) := by
      rw [mapM_eq_ok_iff, List.forall₂_map_right_iff]
      exact hfound.imp fun y t ht => ht.2.2 G hG fuel (by omega)
    have hbest : G.bestEmptyRule? x = some r := by
      rw [Grammar.bestEmptyRule?, hG, hget]
      rfl
    rw [emptyTree, hbest]
    simp only [htrees]
    rfl

omit [DecidableEq P] [DecidableEq W] [Probability P] in
/-- What holds of a node over trees and derivations of which it holds, holds of all. -/
theorem Unfolds.induction {best : Empty.Choices P W} {motive : Tree → Derivation P W → Prop}
    (node : ∀ {c p r ts ds}, Table.get? best c = some (p, r) → ts.map Tree.category = r.rhs →
      List.Forall₂ motive ts ds → motive (.node c ts) (.node r ds))
    {t : Tree} {d : Derivation P W} (h : Unfolds best t d) : motive t d := by
  induction d generalizing t with
  | leaf c token => cases h
  | node r ds ih =>
    cases h with
    | @node c p _ ts _ hc hcategories hts =>
      have hall := (List.forall₂_and_left (p := (· ∈ ds)) ds ts).mpr ⟨fun _ hd => hd, hts.flip⟩
      exact node hc hcategories (hall.imp fun d t hd => ih d hd.1 hd.2).flip

/-- Where names have one spelling only, the tree is that of the derivation. -/
theorem Unfolds.isEmptyBest [UnitProducts P] (hG : G.Compiled solver) {t : Tree}
    {d : Derivation P W} (h : Unfolds G.choices t d) : IsEmptyBest G d ∧ d.toTree = t := by
  refine h.induction (motive := fun t d => IsEmptyBest G d ∧ d.toTree = t)
    fun {c p r ts ds} hc hcategories hts => ?_
  have hlhs := hG.lhs_eq_of_choice hc
  have htrees : ds.map Derivation.toTree = ts := map_eq_of_forall₂ (hts.imp fun t d hd => hd.2)
  have hroots : ds.map Derivation.root = r.rhs := by
    rw [← hcategories, ← htrees, List.map_map]
    exact List.map_congr_left fun d _ => (Derivation.category_toTree d).symm
  refine ⟨.node ?_ hroots fun d hd => ?_, ?_⟩
  · rw [Grammar.bestEmptyRule?, hlhs, hc]
    rfl
  · obtain ⟨t, _, hbest, _⟩ := exists_left_of_mem hts hd
    exact hbest
  · rw [Derivation.toTree_node, htrees, hlhs]

/-- **Every category that can be empty has a chosen empty derivation**, and the number of categories
is depth enough for its tree. -/
theorem exists_isEmptyBest [UnitProducts P] (hG : G.Compiled solver) {x : Category}
    (hx : G.isNullable x = true) :
    ∃ d : Derivation P W, IsEmptyBest G d ∧ d.root = x ∧
      emptyTree G (G.index.length + 1) x = .ok d.toTree := by
  obtain ⟨p, r, hget⟩ := hG.exists_choice hx
  obtain ⟨tree, d, hroot, hunfolds, htree⟩ :=
    exists_emptyTree hG.chosen hG.names.covers (Empty.chance_eq_some_iff.mpr ⟨r, hget⟩)
  obtain ⟨hbest, rfl⟩ := hunfolds.isEmptyBest hG
  refine ⟨d, hbest, (Derivation.category_toTree d).symm.trans hroot, htree G rfl _ ?_⟩
  have hlen : G.names.length = G.index.length := List.length_map _
  omega

/-! ## Children in their places -/

/-- Some children are put back among those that were found, place by place. -/
inductive Restored (G : Grammar P W) (omitted : List Int) :
    List (Category × Nat) → List (Derivation P W) → List (Derivation P W) → Prop
  | nil : Restored G omitted [] [] []
  | empty {c : Category} {i : Nat} {places : List (Category × Nat)}
      {found all : List (Derivation P W)} {d : Derivation P W}
      (homitted : omitted.contains (i : Int) = true) (hd : IsEmptyBest G d) (hroot : d.root = c)
      (htree : emptyTree G (G.index.length + 1) c = .ok d.toTree)
      (hrest : Restored G omitted places found all) :
      Restored G omitted ((c, i) :: places) found (d :: all)
  | found {c : Category} {i : Nat} {places : List (Category × Nat)}
      {found all : List (Derivation P W)} {d : Derivation P W}
      (homitted : omitted.contains (i : Int) = false) (hroot : d.root = c)
      (hrest : Restored G omitted places found all) :
      Restored G omitted ((c, i) :: places) (d :: found) (d :: all)

namespace Restored

variable {omitted : List Int} {places : List (Category × Nat)} {found all : List (Derivation P W)}

omit [DecidableEq P] [DecidableEq W] [Probability P] in
/-- **Restoring trees gives the trees of what is restored.** -/
theorem restore_eq (h : Restored G omitted places found all) :
    restore G omitted places (found.map Derivation.toTree) = .ok (all.map Derivation.toTree) := by
  induction h with
  | nil => rfl
  | empty homitted _ _ htree _ ih =>
    unfold restore
    rw [if_pos homitted, htree, ih]
    rfl
  | found homitted _ _ ih =>
    unfold restore
    rw [if_neg (Bool.eq_false_iff.mp homitted)]
    simp only [List.map_cons, ih]
    rfl

omit [DecidableEq P] [DecidableEq W] [Probability P] in
/-- What is restored covers all places of the source. -/
theorem roots_eq (h : Restored G omitted places found all) :
    all.map Derivation.root = places.map (·.1) := by
  induction h with
  | nil => rfl
  | empty _ _ hroot _ _ ih => rw [List.map_cons, List.map_cons, hroot, ih]
  | found _ hroot _ ih => rw [List.map_cons, List.map_cons, hroot, ih]

omit [DecidableEq P] [DecidableEq W] [Probability P] in
/-- What is restored adds no tokens. -/
theorem tokens_eq (h : Restored G omitted places found all) :
    all.flatMap Derivation.tokens = found.flatMap Derivation.tokens := by
  induction h with
  | nil => rfl
  | empty _ hd _ _ _ ih => rw [List.flatMap_cons, hd.tokens_eq, ih, List.nil_append]
  | found _ _ _ ih => rw [List.flatMap_cons, List.flatMap_cons, ih]

omit [DecidableEq P] [DecidableEq W] [Probability P] in
/-- What is restored was found, or is a best empty derivation. -/
theorem mem (h : Restored G omitted places found all) {d : Derivation P W} (hd : d ∈ all) :
    IsEmptyBest G d ∨ d ∈ found := by
  induction h with
  | nil => cases hd
  | empty _ hempty _ _ _ ih =>
    rcases List.mem_cons.mp hd with rfl | hd
    · exact Or.inl hempty
    · exact ih hd
  | found _ _ _ ih =>
    rcases List.mem_cons.mp hd with rfl | hd
    · exact Or.inr List.mem_cons_self
    · exact (ih hd).imp id (List.mem_cons_of_mem _)

end Restored

/-- Children can be restored when the symbols of the places that stay are theirs and those of the
others can be empty. -/
theorem exists_restored [UnitProducts P] (hG : G.Compiled solver) {omitted : List Int}
    {places : List (Category × Nat)} {found : List (Derivation P W)}
    (hroots : found.map Derivation.root
      = (places.filter fun place => !omitted.contains (place.2 : Int)).map (·.1))
    (hempty : ∀ place ∈ places, omitted.contains (place.2 : Int) = true →
      G.isNullable place.1 = true) :
    ∃ all, Restored G omitted places found all := by
  induction places generalizing found with
  | nil =>
    rw [List.filter_nil, List.map_nil, List.map_eq_nil_iff] at hroots
    rw [hroots]
    exact ⟨[], .nil⟩
  | cons place places ih =>
    have hrest := fun place hplace => hempty place (List.mem_cons_of_mem _ hplace)
    cases homitted : omitted.contains (place.2 : Int) with
    | true =>
      rw [List.filter_cons_of_neg (by rw [homitted]; decide)] at hroots
      obtain ⟨all, hall⟩ := ih hroots hrest
      obtain ⟨d, hd, hroot, htree⟩ :=
        exists_isEmptyBest hG (hempty place List.mem_cons_self homitted)
      exact ⟨d :: all, .empty homitted hd hroot htree hall⟩
    | false =>
      rw [List.filter_cons_of_pos (by rw [homitted]; rfl), List.map_cons] at hroots
      obtain ⟨d, found, rfl, hroot, hroots⟩ := List.map_eq_cons_iff.mp hroots
      obtain ⟨all, hall⟩ := ih hroots hrest
      exact ⟨d :: all, .found homitted hroot hall⟩

/-! ## Children of a rule -/

/-- The rule that a variant came from; a rule that is no variant is its own. -/
def sourceOf (r : Rule P W) : Rule P W :=
  r.source?.getD r

/-- The children of a rule, with those put back that it left out. -/
def Restores (G : Grammar P W) (r : Rule P W) (found all : List (Derivation P W)) : Prop :=
  match r.source? with
  | none => all = found
  | some source => Restored G r.omitted source.rhs.zipIdx found all

variable {goal : Category} {r : Rule P W} {found all : List (Derivation P W)}

omit [DecidableEq P] [DecidableEq W] [Probability P] in
theorem Restores.roots_eq (h : Restores G r found all)
    (hroots : found.map Derivation.root = r.rhs) : all.map Derivation.root = (sourceOf r).rhs := by
  unfold Restores at h
  unfold sourceOf
  cases hsource : r.source? with
  | none =>
    rw [hsource] at h
    rw [h]
    exact hroots
  | some source =>
    rw [hsource] at h
    rw [h.roots_eq, List.zipIdx_map_fst]
    rfl

omit [DecidableEq P] [DecidableEq W] [Probability P] in
theorem Restores.tokens_eq (h : Restores G r found all) :
    all.flatMap Derivation.tokens = found.flatMap Derivation.tokens := by
  unfold Restores at h
  split at h
  · rw [h]
  · exact h.tokens_eq

omit [DecidableEq P] [DecidableEq W] [Probability P] in
theorem Restores.mem (h : Restores G r found all) {d : Derivation P W} (hd : d ∈ all) :
    IsEmptyBest G d ∨ d ∈ found := by
  unfold Restores at h
  split at h
  · rw [h] at hd
    exact Or.inr hd
  · exact h.mem hd

omit [DecidableEq P] [DecidableEq W] [Probability P] in
/-- The node of a complete state has the restored children. -/
theorem nodeOf_eq {s : State P W} (hcomplete : s.isComplete = true)
    (h : Restores G s.rule found all) : nodeOf G s (found.map Derivation.toTree)
      = .ok (.node s.rule.lhs (all.map Derivation.toTree)) := by
  unfold Restores at h
  unfold nodeOf
  rw [hcomplete]
  cases hsource : s.rule.source? with
  | none =>
    rw [hsource] at h
    rw [h]
  | some source =>
    rw [hsource] at h
    simp only [h.restore_eq]
    rfl

/-- A rule that the parser uses came from one that the grammar was given. -/
theorem ChartRule.sourceOf_mem (hG : G.Compiled solver) (h : ChartRule G goal r)
    (hlhs : r.lhs ≠ .start) : sourceOf r ∈ G.rules ∧ (sourceOf r).lhs = r.lhs := by
  obtain ⟨q, hq, rfl⟩ := h.uses hG hlhs
  obtain ⟨_, source, hexp⟩ := hG.mem_productionsOf.mp hq
  cases hexp.expands with
  | whole =>
    obtain ⟨head, p, _, rfl⟩ := hG.given source hexp.mem
    exact ⟨hexp.mem, rfl⟩
  | variant => exact ⟨hexp.mem, rfl⟩

omit [DecidableEq P] [DecidableEq W] in
theorem contains_omitted (A : ScoreAlgebra P W) (mass best : Category → P) (r : Rule P W)
    (o : List (Category × Nat)) (i : Nat) :
    (Omission.production A mass best r o).rule.omitted.contains (i : Int)
      = (o.map (·.2)).contains i := by
  show ((o.map (·.2)).map Int.ofNat).contains (i : Int) = _
  rw [Bool.eq_iff_iff, List.contains_iff_mem, List.contains_iff_mem]
  exact List.mem_map_of_injective fun _ _ h => Int.ofNat.inj h

/-- **The children of every rule of a chart can be restored.** -/
theorem ChartRule.exists_restores [UnitProducts P] (hG : G.Compiled solver)
    (h : ChartRule G goal r) (hroots : found.map Derivation.root = r.rhs) :
    ∃ all, Restores G r found all := by
  cases h with
  | start => exact ⟨found, rfl⟩
  | empty hnull hq =>
    rw [emptyStart_eq_ok hq] at hroots ⊢
    refine exists_restored hG hroots fun place hplace _ => ?_
    obtain ⟨rfl⟩ := List.mem_singleton.mp hplace
    exact hnull
  | used hq =>
    obtain ⟨_, source, hexp⟩ := hG.mem_productionsOf.mp hq
    cases hexp.expands with
    | whole =>
      obtain ⟨head, p, _, rfl⟩ := hG.given source hexp.mem
      exact ⟨found, rfl⟩
    | @variant o ho hpos hp =>
      -- the children that were found stand at the places that were not left out
      refine exists_restored hG ?_ fun place hplace homitted => ?_
      · rw [hroots]
        show Omission.remaining source.rhs (o.map (·.2)) = _
        unfold Omission.remaining
        congr 1
        refine List.filter_congr fun place _ => ?_
        rw [contains_omitted]
      · have hmem : place.2 ∈ o.map (·.2) := by
          rw [contains_omitted] at homitted
          exact List.contains_iff_mem.mp homitted
        obtain ⟨place', hplace', heq⟩ := List.mem_map.mp hmem
        obtain ⟨hget, hnull⟩ := Omission.getElem?_of_mem_omission ho hplace'
        have hget' := List.mem_zipIdx_iff_getElem?.mp hplace
        rw [← heq, hget] at hget'
        rw [← Option.some.inj hget']
        exact hnull

end Parser
end StochasticGrammar
