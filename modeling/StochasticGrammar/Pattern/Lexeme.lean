import StochasticGrammar.Pattern.Width

/-!
# Lexemes of written patterns

The written form of a pattern is cut into lexemes, a character or a backslash with the character
after it. A reader takes lexemes one by one and keeps what it has learnt on the way. It always looks
one lexeme ahead, so a backslash that ends the pattern is reported as soon as the lexeme before it
has been taken.
-/

namespace StochasticGrammar.Pattern

/-- A character of a written pattern, a character after a backslash, or a backslash at the end. -/
inductive Lexeme where
  | plain (c : Char)
  | escaped (c : Char)
  | dangling
  deriving DecidableEq, Repr

/-- The text of a lexeme. -/
def Lexeme.text : Lexeme → String
  | plain c => String.singleton c
  | escaped c => String.ofList ['\\', c]
  | dangling => "\\"

/-- Cuts a text into lexemes, each with the place where it starts. -/
def lexemes : Nat → List Char → List (Nat × Lexeme)
  | _, [] => []
  | i, ['\\'] => [(i, .dangling)]
  | i, '\\' :: c :: cs => (i, .escaped c) :: lexemes (i + 2) cs
  | i, c :: cs => (i, .plain c) :: lexemes (i + 1) cs

/-- How far a pattern has been read, and what has been learnt. -/
structure Cursor where
  /-- What is left to read. -/
  rest : List (Nat × Lexeme)
  source : String
  flags : Flags
  /-- The widths of the numbered groups so far, none while a group is open. -/
  groups : List (Option Width)
  /-- The numbers of the named groups. -/
  names : List (String × Nat)
  /-- How many groups there were when the outermost look back began. -/
  behind : Option Nat
  /-- The groups that conditions ask about, each with the first place that does. -/
  wanted : List (Nat × Nat)

/-- Readers move a cursor and may report an error. -/
abbrev Reader := StateT Cursor (Except Error)

namespace Reader

/-- The place of the next lexeme. -/
def place : Reader Nat := do
  let s ← get
  match s.rest with
  | [] => return s.source.length
  | (i, _) :: _ => return i

/-- Reports a fault at a place. -/
def fail {α : Type} (fault : Fault) (position : Nat) : Reader α := do
  throw (.written fault position (← get).source)

/-- Reports a fault so many characters before the next lexeme. -/
def failBefore {α : Type} (fault : Fault) (distance : Nat) : Reader α := do
  fail fault ((← place) - distance)

/-- The next lexeme, which stays. -/
def peek : Reader (Option Lexeme) := do
  return (← get).rest.head?.map (·.2)

/-- Reports a backslash that ends the pattern if it is the next lexeme. -/
def checkAhead : Reader Unit := do
  match (← get).rest with
  | (i, .dangling) :: _ => fail .endInEscape i
  | _ => pure ()

/-- Takes the next lexeme. -/
def next : Reader (Option Lexeme) := do
  let s ← get
  match s.rest with
  | [] => return none
  | (_, t) :: rest =>
    set { s with rest := rest }
    checkAhead
    return some t

/-- Takes the next lexeme if it is the given character. -/
def accept (c : Char) : Reader Bool := do
  if (← peek) = some (.plain c) then
    let _ ← next
    return true
  else
    return false

/-- Takes at most `n` plain characters of a class. -/
def takeUpTo (p : Char → Bool) : Nat → Reader (List Char)
  | 0 => return []
  | n + 1 => do
    match ← peek with
    | some (.plain c) =>
      if p c then
        let _ ← next
        return c :: (← takeUpTo p n)
      else return []
    | _ => return []

/-- Takes lexemes up to and with a character, at most `n`, and gives the text before it. -/
def takeUntil (terminator : Char) (what : String) : Nat → String → Reader String
  | 0, taken => return taken
  | n + 1, taken => do
    match ← next with
    | none =>
      if taken.isEmpty then failBefore (.missing what) 0
      else failBefore (.unterminatedName terminator) taken.length
    | some t =>
      if t = .plain terminator then
        if taken.isEmpty then failBefore (.missing what) 1 else return taken
      else takeUntil terminator what n (taken ++ t.text)

/-- Takes a name up to and with the character that ends it. -/
def takeName (terminator : Char) (what : String) : Reader String := do
  takeUntil terminator what ((← get).rest.length + 1) ""

end Reader
end StochasticGrammar.Pattern
