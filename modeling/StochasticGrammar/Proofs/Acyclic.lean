import Mathlib.Data.Finset.Card
import Mathlib.Logic.Relation

/-!
# Relations without cycles

Back pointers and chosen rules are pointers that a search redirects again and again, and a walk
along them has to end. Two facts carry that:

> `Acyclic.redirect`: if no way leads from the new targets back to the redirected node, redirecting
> it closes no cycle.

> `Acyclic.depth_lt`: over finitely many nodes, the number of nodes that can still be reached drops
> along every edge, so it bounds the length of every walk.
-/

namespace StochasticGrammar

open Relation (TransGen ReflTransGen)

variable {α : Type}

/-- No way leads from a node back to itself. -/
def Acyclic (r : α → α → Prop) : Prop :=
  ∀ x, ¬ TransGen r x x

/-- A relation with fewer edges has no more cycles. -/
theorem Acyclic.mono {r s : α → α → Prop} (hs : Acyclic s) (h : ∀ x y, r x y → s x y) :
    Acyclic r := by
  intro x hx
  exact hs x (Relation.TransGen.mono h x x hx)

/-- A way over redirected edges either avoids the redirected node `a`, or splits there: one way
leads into `a`, and another leads on from one of its new targets. -/
theorem transGen_redirect {r s : α → α → Prop} {a : α} {target : α → Prop}
    (hs : ∀ x y, s x y → (x = a ∧ target y) ∨ r x y)
    (hback : ∀ y, target y → ¬ ReflTransGen r y a) {x y : α} (h : TransGen s x y) :
    TransGen r x y ∨ (ReflTransGen r x a ∧ ∃ z, target z ∧ ReflTransGen r z y) := by
  induction h with
  | single hxy =>
    rcases hs _ _ hxy with ⟨rfl, ht⟩ | hr
    · exact Or.inr ⟨.refl, _, ht, .refl⟩
    · exact Or.inl (.single hr)
  | tail _ hyz ih =>
    rcases hs _ _ hyz with ⟨rfl, ht⟩ | hr
    · rcases ih with hxy | ⟨_, z, hz, hzy⟩
      · exact Or.inr ⟨hxy.to_reflTransGen, _, ht, .refl⟩
      · exact absurd hzy (hback z hz)
    · rcases ih with hxy | ⟨hxa, z, hz, hzy⟩
      · exact Or.inl (hxy.tail hr)
      · exact Or.inr ⟨hxa, z, hz, hzy.tail hr⟩

/-- Redirecting a node to targets from which no way leads back to it closes no cycle. -/
theorem Acyclic.redirect {r s : α → α → Prop} {a : α} {target : α → Prop} (hr : Acyclic r)
    (hs : ∀ x y, s x y → (x = a ∧ target y) ∨ r x y)
    (hback : ∀ y, target y → ¬ ReflTransGen r y a) : Acyclic s := by
  intro x hx
  rcases transGen_redirect hs hback hx with hrx | ⟨hxa, z, hz, hzx⟩
  · exact hr x hrx
  · exact hback z hz (hzx.trans hxa)

/-! ## Depth -/

open Classical in
/-- How many of the given nodes can be reached from a node in one step or more. -/
noncomputable def depth (r : α → α → Prop) (nodes : List α) (x : α) : Nat :=
  (nodes.toFinset.filter (TransGen r x)).card

theorem depth_le (r : α → α → Prop) (nodes : List α) (x : α) : depth r nodes x ≤ nodes.length := by
  classical
  unfold depth
  exact (Finset.card_filter_le _ _).trans nodes.toFinset_card_le

/-- Without cycles, every edge between the given nodes leads to a smaller depth. -/
theorem Acyclic.depth_lt {r : α → α → Prop} (hr : Acyclic r) {nodes : List α} {x y : α}
    (hxy : r x y) (hy : y ∈ nodes) : depth r nodes y < depth r nodes x := by
  classical
  unfold depth
  refine Finset.card_lt_card ⟨fun z hz => ?_, fun hsub => ?_⟩
  · rw [Finset.mem_filter] at hz ⊢
    exact ⟨hz.1, .head hxy hz.2⟩
  · have hyy := hsub (Finset.mem_filter.mpr ⟨List.mem_toFinset.mpr hy, .single hxy⟩)
    exact hr y (Finset.mem_filter.mp hyy).2

/-- A node that is itself one of the given ones is not among those it reaches. -/
theorem Acyclic.depth_lt_length {r : α → α → Prop} (hr : Acyclic r) {nodes : List α} {x : α}
    (hx : x ∈ nodes) : depth r nodes x < nodes.length := by
  classical
  unfold depth
  refine Nat.lt_of_lt_of_le (Finset.card_lt_card ⟨Finset.filter_subset _ _, fun hsub => ?_⟩)
    nodes.toFinset_card_le
  exact hr x (Finset.mem_filter.mp (hsub (List.mem_toFinset.mpr hx))).2

end StochasticGrammar
