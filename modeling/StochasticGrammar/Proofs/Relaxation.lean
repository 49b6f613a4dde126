import StochasticGrammar.Proofs.Acyclic

/-!
# Relaxing labels

A search that keeps the best label of every node with pointers to the nodes it was computed from,
and replaces a label only by a strictly better one. Labels that pointers lead to may improve later
on without the pointer noticing, so a label is only known to be at most as good as what it points
to. Two facts are kept by every relaxation:

> `Relaxed`: pointers close no cycle, as long as a label that points within its own level is never
> better than what it points to.

> `Stamped`: a node that was relaxed in some round points to one that was relaxed in that round or
> the one before, so the number of rounds is bounded by the length of a chain of pointers.
-/

namespace StochasticGrammar

open Relation (ReflTransGen)

variable {N W : Type}

/-- On the scores that come up, the order is a strict weak order. -/
structure WeakOrder (D : W → Prop) (lt : W → W → Prop) : Prop where
  asymm : ∀ {a b}, D a → D b → lt a b → ¬ lt b a
  trans : ∀ {a b c}, D a → D b → D c → ¬ lt a b → ¬ lt b c → ¬ lt a c

theorem WeakOrder.irrefl {D : W → Prop} {lt : W → W → Prop} (h : WeakOrder D lt) {a : W}
    (ha : D a) : ¬ lt a a :=
  fun haa => h.asymm ha ha haa haa

/-! ## Pointers -/

/-- What every relaxation keeps about labels and pointers. -/
structure Relaxed (D : W → Prop) (lt : W → W → Prop) (level : N → Nat) (label : N → Option W)
    (points : N → N → Prop) : Prop where
  dom : ∀ {x w}, label x = some w → D w
  target : ∀ {x y}, points x y → ∃ w, label y = some w
  up : ∀ {x y}, points x y → level x ≤ level y
  /-- A label is at most as good as the labels it points to on its own level. -/
  le : ∀ {x y w v}, points x y → level x = level y → label x = some w → label y = some v → ¬ lt v w
  acyclic : Acyclic points

namespace Relaxed

variable {D : W → Prop} {lt : W → W → Prop} {level : N → Nat} {label label' : N → Option W}
  {points points' : N → N → Prop}

/-- Along pointers the level never falls, and where it stays, the label never gets worse. -/
theorem along (hord : WeakOrder D lt) (h : Relaxed D lt level label points) {x y : N} {v : W}
    (hxy : ReflTransGen points x y) (hx : label x = some v) :
    level x ≤ level y ∧ ∃ w, label y = some w ∧ (level x = level y → ¬ lt w v) := by
  induction hxy with
  | refl => exact ⟨Nat.le_refl _, v, hx, fun _ => hord.irrefl (h.dom hx)⟩
  | @tail b c _ hbc ih =>
    obtain ⟨hle, wb, hwb, hb⟩ := ih
    obtain ⟨wc, hwc⟩ := h.target hbc
    have hup := h.up hbc
    refine ⟨Nat.le_trans hle hup, wc, hwc, fun heq => ?_⟩
    have hbc' : level b = level c := by omega
    exact hord.trans (h.dom hwc) (h.dom hwb) (h.dom hx) (h.le hbc hbc' hwb hwc) (hb (by omega))

/-- **Relaxing a node** keeps everything: it gets a strictly better label, computed from labels that
are at least as good or lie on a higher level. -/
theorem relax (hord : WeakOrder D lt) (h : Relaxed D lt level label points) (target : N → Prop)
    {a : N} {w : W} (hw : D w) (ha : label' a = some w) (hlabel : ∀ x, x ≠ a → label' x = label x)
    (hpoints : ∀ x y, points' x y → (x = a ∧ target y) ∨ (x ≠ a ∧ points x y))
    (htarget : ∀ y, target y → ∃ v, label y = some v ∧ level a ≤ level y ∧
      (level a = level y → ¬ lt v w))
    (hbetter : ∀ old, label a = some old → lt old w) : Relaxed D lt level label' points' := by
  -- along a way back labels get no worse, so that the old one would be as good as the new one
  have hback : ∀ y, target y → ¬ ReflTransGen points y a := by
    intro y hy hya
    obtain ⟨v, hv, hle, hnot⟩ := htarget y hy
    obtain ⟨hle', old, hold, hnot'⟩ := h.along hord hya hv
    have heq : level a = level y := Nat.le_antisymm hle hle'
    exact hord.trans (h.dom hold) (h.dom hv) hw (hnot' heq.symm) (hnot heq) (hbetter old hold)
  have hne : ∀ y, target y → y ≠ a := by
    rintro y hy rfl
    exact hback y hy .refl
  refine ⟨fun {x v} hx => ?_, fun {x y} hxy => ?_, fun {x y} hxy => ?_,
    fun {x y v u} hxy heq hx hy => ?_,
    h.acyclic.redirect (fun x y hxy => (hpoints x y hxy).imp id And.right) hback⟩
  · by_cases hxa : x = a
    · rw [hxa, ha] at hx
      cases hx
      exact hw
    · rw [hlabel x hxa] at hx
      exact h.dom hx
  · by_cases hya : y = a
    · exact ⟨w, hya ▸ ha⟩
    · rw [hlabel y hya]
      rcases hpoints x y hxy with ⟨_, hy⟩ | ⟨_, hxy⟩
      · obtain ⟨v, hv, _⟩ := htarget y hy
        exact ⟨v, hv⟩
      · exact h.target hxy
  · rcases hpoints x y hxy with ⟨rfl, hy⟩ | ⟨_, hxy⟩
    · obtain ⟨v, _, hle, _⟩ := htarget y hy
      exact hle
    · exact h.up hxy
  · rcases hpoints x y hxy with ⟨rfl, hty⟩ | ⟨hxa, hxy⟩
    · -- the relaxed node itself
      obtain ⟨v', hv', _, hnot⟩ := htarget y hty
      rw [hlabel y (hne y hty), hv'] at hy
      rw [ha] at hx
      cases hx
      cases hy
      exact hnot heq
    · rw [hlabel x hxa] at hx
      by_cases hya : y = a
      · -- a pointer to the relaxed node, which has only become better
        rw [hya, ha] at hy
        cases hy
        obtain ⟨old, hold⟩ := h.target hxy
        have hle := h.le hxy heq hx hold
        rw [hya] at hold
        have hup := hord.asymm (h.dom hold) hw (hbetter old hold)
        exact hord.trans hw (h.dom hold) (h.dom hx) hup hle
      · rw [hlabel y hya] at hy
        exact h.le hxy heq hx hy

end Relaxed

/-! ## Rounds -/

/-- Every node has a stamp no later than `first`, or it points to a node whose stamp is at most one
round earlier. -/
def Stamped (first : Nat) (points : N → N → Prop) (stamp : N → Nat) : Prop :=
  ∀ x, stamp x ≤ first ∨ ∃ y, points x y ∧ stamp x ≤ stamp y + 1

/-- A stamp is no later than the chain of pointers behind it is long. -/
theorem Stamped.le_depth {first : Nat} {points : N → N → Prop} {stamp : N → Nat}
    (h : Stamped first points stamp) (hacyclic : Acyclic points) {nodes : List N}
    (hnodes : ∀ {x y}, points x y → y ∈ nodes) (x : N) :
    stamp x ≤ first + depth points nodes x := by
  induction hd : depth points nodes x using Nat.strong_induction_on generalizing x with
  | _ d ih =>
    subst hd
    rcases h x with hx | ⟨y, hxy, hle⟩
    · exact Nat.le_add_right_of_le hx
    · have hlt := hacyclic.depth_lt hxy (hnodes hxy)
      have := ih _ hlt y rfl
      omega

/-- Relaxing a node gives it a new stamp. -/
theorem Stamped.relax {first n : Nat} {points points' : N → N → Prop} {stamp stamp' : N → Nat}
    (h : Stamped first points stamp) {a : N} (ha : stamp' a = n) (hle : stamp a ≤ n)
    (hstamp : ∀ x, x ≠ a → stamp' x = stamp x) (hpoints : ∀ x y, x ≠ a → points x y → points' x y)
    (hnew : n ≤ first ∨ ∃ y, points' a y ∧ n ≤ stamp' y + 1) : Stamped first points' stamp' := by
  intro x
  by_cases hxa : x = a
  · rw [hxa, ha]
    exact hnew
  · rw [hstamp x hxa]
    refine (h x).imp id ?_
    rintro ⟨y, hxy, hle'⟩
    refine ⟨y, hpoints x y hxa hxy, ?_⟩
    by_cases hya : y = a
    · rw [hya, ha]
      rw [hya] at hle'
      omega
    · rw [hstamp y hya]
      exact hle'

end StochasticGrammar
