import StochasticGrammar.Pattern.Basic

/-!
# Widths of patterns

The least and the greatest number of characters that a pattern can take. A look back is possible
only over a part for which the two agree.
-/

namespace StochasticGrammar.Pattern

/-- A least and a greatest number of characters; without a greatest one there is no bound. -/
structure Width where
  least : Nat
  most : Option Nat
  deriving DecidableEq, Repr

namespace Width

/-- The width of what takes exactly so many characters. -/
def exactly (n : Nat) : Width :=
  ⟨n, some n⟩

/-- The width of one part after another. -/
def add (a b : Width) : Width :=
  ⟨a.least + b.least, do return (← a.most) + (← b.most)⟩

/-- The width of one of two parts. -/
def join (a b : Width) : Width :=
  ⟨min a.least b.least, do return max (← a.most) (← b.most)⟩

/-- The width of a repeated part. -/
def times (w : Width) (least : Nat) (most : Option Nat) : Width :=
  ⟨w.least * least,
    if w.most = some 0 ∨ most = some 0 then some 0 else do return (← w.most) * (← most)⟩

/-- Whether every match takes the same number of characters. -/
def isFixed (w : Width) : Bool :=
  decide (w.most = some w.least)

end Width

/-- The width of a pattern, given the widths of its numbered groups. -/
def width (groups : List (Option Width)) : Pattern → Width
  | .empty | .anchor _ | .look _ _ _ => .exactly 0
  | .dot | .char _ _ | .oneOf _ => .exactly 1
  | .cat p q => (p.width groups).add (q.width groups)
  | .alt p q => (p.width groups).join (q.width groups)
  | .rep _ least most body => (body.width groups).times least most
  | .group _ body | .scoped _ _ body | .atomic body => body.width groups
  | .same number => ((groups[number - 1]?).join).getD (.exactly 0)
  | .choice _ yes no => (yes.width groups).join (no.width groups)

/-- The greatest distance that a look back can bridge, which is also the greatest count of a
repetition. -/
def greatestCount : Nat := 4294967295

/-- Checks what can only be checked of a pattern as a whole: that every look back has one width, and
that a template repeats nothing. The first fault from the left is reported. -/
def check (groups : List (Option Width)) (flags : Flags) : Pattern → Except Error Unit
  | .empty | .dot | .char _ _ | .oneOf _ | .anchor _ | .same _ => .ok ()
  | .cat p q | .alt p q | .choice _ p q => do
    p.check groups flags
    q.check groups flags
  | .rep appetite _ _ body =>
    if flags.contains .template then .error (.unusable (.templateRepeat appetite))
    else body.check groups flags
  | .group _ body | .scoped _ _ body | .atomic body | .look none _ body => body.check groups flags
  | .look (some _) _ body =>
    if greatestCount < (body.width groups).least then .error (.unusable .lookBehindTooFar)
    else if !(body.width groups).isFixed then .error (.unusable .lookBehindWidth)
    else body.check groups flags

end StochasticGrammar.Pattern
