import StochasticGrammar.Payload
import StochasticGrammar.Pattern.Match
import StochasticGrammar.Text.CaseFold

/-!
# Categories

The symbols of a grammar. A plain name or number is a nonterminal if some rule expands it and a
terminal otherwise; a terminal object decides by itself which tokens belong to it. The start symbol
is a category of its own that no name spells.

Terminals that ask for equal values, such as one and true, are the same category, `==`, in whichever
way the value is spelled.
-/

namespace StochasticGrammar

/-- A terminal that decides membership of a token itself. -/
inductive Terminal where
  /-- Tokens of this value. -/
  | exact (value : Payload)
  /-- Texts equal to this one up to case. -/
  | caseless (text : String)
  /-- Texts that match a pattern as a whole; `options` packs how it is matched. -/
  | pattern (source : String) (options : Int)
  /-- Every token. -/
  | any
  deriving DecidableEq

/-- A symbol of a grammar. -/
inductive Category where
  | name (s : String)
  | number (n : Int)
  | start
  | terminal (t : Terminal)
  deriving DecidableEq

namespace Terminal

/-- The terminal with its value in canonical form. -/
def canonical : Terminal → Terminal
  | exact value => exact value.canonical
  | t => t

/-- Equality up to the spelling of values. -/
instance : BEq Terminal where
  beq a b := decide (a.canonical = b.canonical)

theorem beq_iff_canonical_eq (a b : Terminal) :
    (a == b) = true ↔ a.canonical = b.canonical :=
  decide_eq_true_iff

instance : EquivBEq Terminal :=
  equivBEq_of_iff canonical beq_iff_canonical_eq

/-- The terminal in running text. -/
def display : Terminal → String
  | exact value => value.display
  | caseless text => text
  | pattern source _ => "/" ++ source ++ "/"
  | any => "*"

/-- The terminal in a message about a rule. -/
def literal : Terminal → String
  | exact value => "ExactTerminal(value=" ++ value.literal ++ ")"
  | caseless text => "CaseInsensitiveTerminal(value=" ++ Text.quoted text ++ ")"
  | pattern source options =>
    "RegexTerminal(pattern=" ++ Text.quoted source ++ ", flags=" ++ toString options ++ ")"
  | any => "AnyTerminal()"

/-- Whether the token belongs to the terminal. A pattern is read only when it meets a text, so a
faulty one is harmless until then. -/
def accepts : Terminal → Payload → Except Pattern.Error Bool
  | exact value, token => .ok (token == value)
  | caseless text, .text s => .ok (Text.caseFold s == Text.caseFold text)
  | pattern source options, .text s => do
    let p ← Pattern.parse (Pattern.Flag.ofBits options) source
    return p.matchesAll s
  | any, _ => .ok true
  | _, _ => .ok false

end Terminal

namespace Category

/-- The category with its value, if it has one, in canonical form. -/
def canonical : Category → Category
  | terminal t => terminal t.canonical
  | c => c

theorem canonical_canonical (c : Category) : c.canonical.canonical = c.canonical := by
  cases c with
  | terminal t =>
    cases t with
    | exact v => exact congrArg (fun v => terminal (.exact v)) v.canonical_canonical
    | _ => rfl
  | _ => rfl

/-- Equality up to the spelling of values. -/
instance : BEq Category where
  beq
    | name s, name t => decide (s = t)
    | number m, number n => decide (m = n)
    | start, start => true
    | terminal a, terminal b => a == b
    | _, _ => false

theorem beq_iff_canonical_eq (a b : Category) :
    (a == b) = true ↔ a.canonical = b.canonical := by
  cases a <;> cases b <;> simp [BEq.beq, canonical]

instance : EquivBEq Category :=
  equivBEq_of_iff canonical beq_iff_canonical_eq

/-- What is no terminal object is the same as itself only. -/
theorem beq_iff_eq_of_plain {a : Category} (h : ∀ t, a ≠ terminal t) (b : Category) :
    (a == b) = true ↔ a = b := by
  cases a <;> cases b <;> simp_all [BEq.beq]

/-- Whether the category is a terminal object. -/
def isTerminalObject : Category → Bool
  | terminal _ => true
  | _ => false

/-- The category in running text. -/
def display : Category → String
  | name s => s
  | number n => toString n
  | start => "START"
  | terminal t => t.display

/-- The category in a message about a rule. -/
def literal : Category → String
  | name s => Text.quoted s
  | number n => toString n
  | start => "START"
  | terminal t => t.literal

/-- Whether the token belongs to the category. A plain category takes the tokens equal to it, and no
token is the start symbol. -/
def accepts : Category → Payload → Except Pattern.Error Bool
  | name s, token => .ok (token == .text s)
  | number n, token => .ok (token == .integer n)
  | start, _ => .ok false
  | terminal t, token => t.accepts token

/-- Symbols divided by blanks; an epsilon stands for none. -/
def displayAll (symbols : List Category) : String :=
  match symbols with
  | [] => "ε"
  | _ => " ".intercalate (symbols.map display)

/-- Symbols as a parenthesised list with commas; a single one keeps a comma after it. -/
def literalAll (symbols : List Category) : String :=
  match symbols with
  | [c] => "(" ++ c.literal ++ ",)"
  | _ => "(" ++ ", ".intercalate (symbols.map literal) ++ ")"

end Category
end StochasticGrammar
