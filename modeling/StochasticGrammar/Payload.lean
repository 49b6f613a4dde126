import StochasticGrammar.Numeric.Layout
import StochasticGrammar.Text.Quoted

/-!
# Token payloads

What a token carries: a text, an integer, a truth value, a real number or nothing. Numbers are
equal by value across the numeric kinds, exactly and without rounding; a truth value counts as one
or zero. A real number that is undefined equals nothing but itself, so each one that is written
down bears a mark of its own.

The number one is also a truth value and a real number, so the same value can be spelled in several
ways. Such spellings are told apart by a canonical form, and `==` holds when the canonical forms are
equal. This makes `==` an equivalence, coarser than `=`, and the spelling stays with the payload.
Categories, rules and states, which are made of payloads, are compared in the same way.
-/

namespace StochasticGrammar

/-! ## Equality by canonical form -/

/-- A test that compares images under a function is an equivalence. -/
theorem equivBEq_of_iff {α β : Type} [BEq α] (f : α → β)
    (h : ∀ a b : α, (a == b) = true ↔ f a = f b) : EquivBEq α where
  rfl := (h _ _).2 rfl
  symm := fun hab => (h _ _).2 ((h _ _).1 hab).symm
  trans := fun hab hbc => (h _ _).2 (((h _ _).1 hab).trans ((h _ _).1 hbc))

/-- Lists are equal when they are equal in canonical form, place by place. -/
theorem list_beq_iff {α β : Type} [BEq α] {f : α → β}
    (h : ∀ a b : α, (a == b) = true ↔ f a = f b) (xs ys : List α) :
    (xs == ys) = true ↔ xs.map f = ys.map f := by
  induction xs generalizing ys with
  | nil => cases ys <;> simp
  | cons x xs ih =>
    cases ys with
    | nil => simp
    | cons y ys => simp [h, ih]

/-! ## Payloads -/

/-- The value that a token carries. -/
inductive Payload where
  | text (s : String)
  | integer (n : Int)
  | truth (b : Bool)
  | real (x : Float)
  | undefined (mark : Nat)
  | nothing
  deriving DecidableEq

namespace Payload

/-- The payload of a real number; `mark` tells undefined ones apart. -/
def ofFloat (x : Float) (mark : Nat) : Payload :=
  if x.isNaN then undefined mark else real x

/-- The payload with every number that equals an integer written as that integer. -/
def canonical : Payload → Payload
  | truth b => integer (if b then 1 else 0)
  | real x =>
    match (Numeric.Binary64.ofFloat x).toInt? with
    | some n => integer n
    | none => real x
  | p => p

theorem canonical_canonical (v : Payload) : v.canonical.canonical = v.canonical := by
  cases v with
  | real x =>
    cases hx : (Numeric.Binary64.ofFloat x).toInt? with
    | none => simp only [canonical, hx]
    | some n => simp only [canonical, hx]
  | _ => rfl

/-- Equality by value. -/
instance : BEq Payload where
  beq a b := decide (a.canonical = b.canonical)

theorem beq_iff_canonical_eq (a b : Payload) :
    (a == b) = true ↔ a.canonical = b.canonical :=
  decide_eq_true_iff

instance : EquivBEq Payload :=
  equivBEq_of_iff canonical beq_iff_canonical_eq

/-- The payload as it is shown in running text. -/
def display : Payload → String
  | text s => s
  | integer n => toString n
  | truth b => if b then "True" else "False"
  | real x => Numeric.shortest x
  | undefined _ => "nan"
  | nothing => "None"

/-- The payload as it is shown inside a message about a rule: texts are quoted. -/
def literal : Payload → String
  | text s => Text.quoted s
  | p => p.display

end Payload

example : (Payload.truth true == .integer 1) = true := by
  decide

end StochasticGrammar
