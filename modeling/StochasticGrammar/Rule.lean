import StochasticGrammar.Category
import StochasticGrammar.Score.Linear

/-!
# Rules

A rule expands a category into a list of symbols with a probability, which it also carries encoded
as a score. A rule derived by leaving out symbols that can be empty remembers the rule it came from
and which places of that rule's right-hand side were left out.

Rules are identified by all of this, `==`, up to the spelling of values in their symbols. The score
that a rule contributes to a best derivation is not part of its identity and is kept beside it, in a
`Production`.
-/

namespace StochasticGrammar

/-- Ordinary rules, and rules that let an unexpected token be parsed at a steep cost. -/
inductive RuleKind where
  | plain
  | lexicalError
  deriving DecidableEq, Repr

/-- What a rule says, apart from how probable it is. -/
structure RuleHead where
  kind : RuleKind
  /-- The category that the rule expands. -/
  lhs : Category
  /-- The symbols that the rule expands it into. -/
  rhs : List Category
  deriving DecidableEq

namespace RuleHead

/-- The head with its values in canonical form. -/
def canonical (h : RuleHead) : RuleHead :=
  ⟨h.kind, h.lhs.canonical, h.rhs.map Category.canonical⟩

/-- Equality up to the spelling of values. -/
instance : BEq RuleHead where
  beq a b := decide (a.kind = b.kind) && a.lhs == b.lhs && a.rhs == b.rhs

theorem beq_iff_canonical_eq (a b : RuleHead) :
    (a == b) = true ↔ a.canonical = b.canonical := by
  show (decide (a.kind = b.kind) && a.lhs == b.lhs && a.rhs == b.rhs) = true ↔ _
  simp [canonical, Category.beq_iff_canonical_eq,
    list_beq_iff Category.beq_iff_canonical_eq, and_assoc]

instance : EquivBEq RuleHead :=
  equivBEq_of_iff canonical beq_iff_canonical_eq

end RuleHead

/-- What every rule consists of. -/
structure RuleBody (P W : Type) where
  head : RuleHead
  probability : P
  /-- The probability as a score. -/
  weight : W
  /-- The places of the source's right-hand side that were left out. -/
  omitted : List Int
  /-- Tells rules apart whose weights are undefined, which equal nothing but themselves. -/
  mark : Nat
  deriving DecidableEq

namespace RuleBody

variable {P W : Type}

/-- The body with its values in canonical form. -/
def canonical (b : RuleBody P W) : RuleBody P W :=
  { b with head := b.head.canonical }

variable [DecidableEq P] [DecidableEq W]

/-- Equality up to the spelling of values. -/
instance : BEq (RuleBody P W) where
  beq a b :=
    decide (a.omitted = b.omitted) && decide (a.probability = b.probability)
      && decide (a.weight = b.weight) && decide (a.mark = b.mark) && a.head == b.head

theorem beq_iff_canonical_eq (a b : RuleBody P W) :
    (a == b) = true ↔ a.canonical = b.canonical := by
  show (decide (a.omitted = b.omitted) && decide (a.probability = b.probability)
    && decide (a.weight = b.weight) && decide (a.mark = b.mark) && a.head == b.head) = true ↔ _
  simp only [canonical, Bool.and_eq_true, decide_eq_true_eq, RuleHead.beq_iff_canonical_eq,
    RuleBody.mk.injEq]
  grind

end RuleBody

/-- A rule as it was given, or one derived from a source rule. -/
inductive Rule (P W : Type) where
  | given (body : RuleBody P W)
  | derived (body : RuleBody P W) (source : Rule P W)
  deriving DecidableEq

namespace Rule

variable {P W : Type}

/-- What the rule consists of. -/
def body : Rule P W → RuleBody P W
  | given b => b
  | derived b _ => b

/-- The rule that this one was derived from. -/
def source? : Rule P W → Option (Rule P W)
  | given _ => none
  | derived _ s => some s

/-- What the rule says. -/
def head (r : Rule P W) : RuleHead :=
  r.body.head

/-- Whether the rule is an ordinary one. -/
def kind (r : Rule P W) : RuleKind :=
  r.head.kind

/-- The category that the rule expands. -/
def lhs (r : Rule P W) : Category :=
  r.head.lhs

/-- The symbols that the rule expands it into. -/
def rhs (r : Rule P W) : List Category :=
  r.head.rhs

/-- How probable the rule is among those that expand its category. -/
def probability (r : Rule P W) : P :=
  r.body.probability

/-- The probability as a score. -/
def weight (r : Rule P W) : W :=
  r.body.weight

/-- The places of the source's right-hand side that were left out. -/
def omitted (r : Rule P W) : List Int :=
  r.body.omitted

/-- A body with its source, if it has one. -/
def ofBody (b : RuleBody P W) : Option (Rule P W) → Rule P W
  | none => given b
  | some s => derived b s

/-- The rule with its values in canonical form. -/
def canonical : Rule P W → Rule P W
  | given b => given b.canonical
  | derived b s => derived b.canonical s.canonical

/-- Whether two rules are equal up to the spelling of values. -/
protected def beq [DecidableEq P] [DecidableEq W] : Rule P W → Rule P W → Bool
  | given a, given b => a == b
  | derived a s, derived b t => a == b && s.beq t
  | _, _ => false

instance [DecidableEq P] [DecidableEq W] : BEq (Rule P W) :=
  ⟨Rule.beq⟩

theorem beq_iff_canonical_eq [DecidableEq P] [DecidableEq W] (a b : Rule P W) :
    (a == b) = true ↔ a.canonical = b.canonical := by
  show a.beq b = true ↔ _
  induction a generalizing b with
  | given a => cases b <;> simp [Rule.beq, canonical, RuleBody.beq_iff_canonical_eq]
  | derived a s ih => cases b <;> simp [Rule.beq, canonical, RuleBody.beq_iff_canonical_eq, ih]

instance [DecidableEq P] [DecidableEq W] : EquivBEq (Rule P W) :=
  equivBEq_of_iff canonical beq_iff_canonical_eq

end Rule

/-- Why a rule is refused: its probability is not in the half-open interval from zero to one. -/
structure ImproperRule (P : Type) where
  head : RuleHead
  probability : P

namespace Rule

variable {P W : Type} [Probability P]

/-- The rule with the given parts, if its probability is proper. -/
def make (b : RuleBody P W) (source : Option (Rule P W)) : Except (ImproperRule P) (Rule P W) :=
  if Probability.IsProper b.probability then .ok (ofBody b source)
  else .error ⟨b.head, b.probability⟩

/-- A rule given by its probability, which the algebra encodes. -/
def create (A : ScoreAlgebra P W) (head : RuleHead) (p : P) :
    Except (ImproperRule P) (Rule P W) :=
  make ⟨head, p, A.ofProbability p, [], 0⟩ none

end Rule

/-- A rule given part by part. Weights are equal by value, so the two zeros are one; a weight that
is undefined equals only itself, and `mark` says which one it is. -/
def Rule.ofParts (head : RuleHead) (probability weight : Float) (omitted : List Int) (mark : Nat)
    (source : Option (Rule Float Float)) : Except (ImproperRule Float) (Rule Float Float) :=
  make ⟨head, probability, if weight == 0.0 then 0.0 else weight, omitted,
    if weight.isNaN then mark else 0⟩ source

/-- The rule in running text, with six places of its probability. -/
def Rule.display {W : Type} (r : Rule Float W) : String :=
  r.lhs.display ++ " -> " ++ Category.displayAll r.rhs
    ++ " (" ++ Numeric.fixed 6 r.probability ++ ")"

/-- The message that refuses a rule. -/
def ImproperRule.message (e : ImproperRule Float) : String :=
  "Rule " ++ e.head.lhs.display ++ "->" ++ Category.literalAll e.head.rhs
    ++ " must have 0<p<=1, got " ++ Numeric.shortest e.probability

/-- A rule with the score that it contributes to a best derivation: its weight, except that symbols
left out count with their single best empty derivation instead of the sum of all of them. -/
structure Production (P W : Type) where
  rule : Rule P W
  best : W

/-- A rule whose best score is its weight. -/
def Production.ofRule {P W : Type} (r : Rule P W) : Production P W :=
  ⟨r, r.weight⟩

end StochasticGrammar
