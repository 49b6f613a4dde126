import StochasticGrammar.Rule

/-!
# States

A state is a rule with a dot in its right-hand side: the symbols before the dot have been found
between two positions of the input. Its identity, `==`, is the rule, the positions and the dot; its
scores belong to the chart that holds it.
-/

namespace StochasticGrammar

/-- A dotted rule over a span of the input. -/
structure State (P W : Type) where
  /-- Where the span starts. -/
  origin : Nat
  /-- How many symbols have been found. -/
  dot : Nat
  /-- Where the span ends. -/
  position : Nat
  rule : Rule P W
  deriving DecidableEq

/-- Why a state is refused. -/
inductive StateError (P W : Type) where
  /-- The dot is not within the right-hand side. -/
  | dotOutside (dot : Int) (rule : Rule P W)
  /-- The span does not start at or before its end, or starts before the input. -/
  | originAfter (origin position : Int)

namespace State

variable {P W : Type}

/-- The state with the given parts. The dot is checked first, then the span. -/
def make (rule : Rule P W) (origin position dot : Int) :
    Except (StateError P W) (State P W) :=
  if ¬ (0 ≤ dot ∧ dot ≤ rule.rhs.length) then .error (.dotOutside dot rule)
  else if ¬ (0 ≤ origin ∧ origin ≤ position) then .error (.originAfter origin position)
  else .ok ⟨origin.toNat, dot.toNat, position.toNat, rule⟩

/-- The state at the start of its rule. -/
def predicted (rule : Rule P W) (position : Nat) : State P W :=
  ⟨position, 0, position, rule⟩

/-- The symbol after the dot. -/
def next? (s : State P W) : Option Category :=
  s.rule.rhs[s.dot]?

/-- Whether every symbol has been found. -/
def isComplete (s : State P W) : Bool :=
  decide (s.rule.rhs.length ≤ s.dot)

/-- A state is complete when nothing follows its dot. -/
theorem isComplete_iff_next?_eq_none (s : State P W) : s.isComplete = true ↔ s.next? = none := by
  simp [isComplete, next?]

/-- The state after one more symbol, found up to a position. -/
def advance (s : State P W) (position : Nat) : State P W :=
  { s with position, dot := s.dot + 1 }

/-- The state after one more symbol, if there is such a state. -/
def advance? (s : State P W) (position : Int) : Except (StateError P W) (State P W) :=
  make s.rule s.origin position (s.dot + 1)

/-- A state in running text: its rule with the dot, and its span. -/
def display (s : State P W) : String :=
  let symbols := s.rule.rhs.map Category.display
  let dotted := symbols.take s.dot ++ "•" :: symbols.drop s.dot
  "[" ++ s.rule.lhs.display ++ " -> " ++ " ".intercalate dotted ++ ", "
    ++ toString s.origin ++ ", " ++ toString s.position ++ "]"

/-- The state with the values of its rule in canonical form. -/
def canonical (s : State P W) : State P W :=
  { s with rule := s.rule.canonical }

variable [DecidableEq P] [DecidableEq W]

/-- Equality up to the spelling of values. -/
instance : BEq (State P W) where
  beq s t :=
    decide (s.origin = t.origin) && decide (s.dot = t.dot) && decide (s.position = t.position)
      && s.rule == t.rule

theorem beq_iff_canonical_eq (s t : State P W) :
    (s == t) = true ↔ s.canonical = t.canonical := by
  show (decide (s.origin = t.origin) && decide (s.dot = t.dot)
    && decide (s.position = t.position) && s.rule == t.rule) = true ↔ _
  simp [canonical, Rule.beq_iff_canonical_eq, and_assoc]

instance : EquivBEq (State P W) :=
  equivBEq_of_iff canonical beq_iff_canonical_eq

end State

/-- The wording of a refusal. -/
def StateError.message {W : Type} : StateError Float W → String
  | dotOutside dot rule => "Dot " ++ toString dot ++ " outside rule " ++ rule.display
  | originAfter origin position =>
    "Origin " ++ toString origin ++ " after position " ++ toString position

end StochasticGrammar
