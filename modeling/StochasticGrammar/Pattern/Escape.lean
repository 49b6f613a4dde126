import StochasticGrammar.Pattern.Lexeme

/-!
# Escapes and character sets

What a backslash and the character after it stand for, outside and inside a character set, and how
the members of a set are read.
-/

namespace StochasticGrammar.Pattern

open Reader

/-- Whether the character is a digit of base eight. -/
def isOctal (c : Char) : Bool :=
  decide ('0' ≤ c) && decide (c ≤ '7')

/-- Whether the character is a digit of base sixteen. -/
def isHex (c : Char) : Bool :=
  c.isDigit || (decide ('a' ≤ c) && decide (c ≤ 'f')) || (decide ('A' ≤ c) && decide (c ≤ 'F'))

/-- The value of a digit of base sixteen. -/
def hexValue (c : Char) : Nat :=
  if c.isDigit then c.toNat - '0'.toNat
  else if 'a' ≤ c then c.toNat - 'a'.toNat + 10
  else c.toNat - 'A'.toNat + 10

/-- The number that digits of a base stand for. -/
def numberIn (base : Nat) (ds : List Char) : Nat :=
  ds.foldl (fun n c => base * n + hexValue c) 0

/-- The character that a letter after a backslash names. -/
def namedChar? : Char → Option Char
  | 'a' => some '\x07'
  | 'f' => some '\x0c'
  | 'n' => some '\n'
  | 'r' => some '\r'
  | 't' => some '\t'
  | 'v' => some '\x0b'
  | '\\' => some '\\'
  | _ => none

/-- The class that a letter after a backslash names. -/
def namedKind? : Char → Option CharItem
  | 'd' => some (.kind .digit false)
  | 'D' => some (.kind .digit true)
  | 'w' => some (.kind .word false)
  | 'W' => some (.kind .word true)
  | 's' => some (.kind .blank false)
  | 'S' => some (.kind .blank true)
  | _ => none

/-- The place condition that a letter after a backslash names. -/
def namedAnchor? : Char → Option Anchor
  | 'A' => some .textStart
  | 'Z' => some .textEnd
  | 'b' => some (.wordEdge false)
  | 'B' => some (.wordEdge true)
  | _ => none

/-- Reads a code point given by exactly `n` digits of base sixteen after `\` and a letter. -/
def readHex (start : Nat) (letter : Char) (n : Nat) : Reader Nat := do
  let ds ← takeUpTo isHex n
  let text := String.ofList ('\\' :: letter :: ds)
  if ds.length ≠ n then fail (.incompleteEscape text) start
  else if 0x10ffff < numberIn 16 ds then fail (.badEscape text) start
  else return numberIn 16 ds

/-- Reads a code point given in base eight, whose first digits have been taken. -/
def readOctal (start : Nat) (first : List Char) (more : Nat) : Reader Nat := do
  let ds ← takeUpTo isOctal more
  let code := numberIn 8 (first ++ ds)
  if code < 256 then return code
  else fail (.octalTooLarge (String.ofList ('\\' :: first ++ ds))) start

/-- Reads the rest of an escape that names a character by number, or stands for the character itself
if that has no meaning of its own. Characters have no names here. -/
def readEscapedChar (start : Nat) (c : Char) : Reader Nat := do
  match c with
  | 'x' => readHex start c 2
  | 'u' => readHex start c 4
  | 'U' => readHex start c 8
  | 'N' =>
    if ← accept '\x7b' then
      let name ← takeName '\x7d' "character name"
      fail (.unknownCharacterName name) start
    else failBefore (.missing "\x7b") 0
  | _ =>
    if c.isAlpha || c.isDigit then fail (.badEscape (String.ofList ['\\', c])) start
    else return c.toNat

/-- Reads an escape inside a character set. -/
def readSetEscape (start : Nat) (c : Char) : Reader CharItem := do
  match namedChar? c, namedKind? c with
  | some d, _ => return .char d.toNat
  | _, some k => return k
  | _, _ =>
    if c = 'b' then return .char 8
    else if isOctal c then return .char (← readOctal start [c] 2)
    else return .char (← readEscapedChar start c)

/-- Whether a group of that number has been read to its end. -/
def isClosed (groups : List (Option Width)) (number : Nat) : Bool :=
  decide (0 < number) && ((groups[number - 1]?).join).isSome

/-- Inside a look back, refuses groups that are open or belong to it. -/
def checkBehind (number : Nat) : Reader Unit := do
  let s ← get
  match s.behind with
  | none => return
  | some count =>
    if !isClosed s.groups number then failBefore .openGroup 0
    if count < number then failBefore .groupBehind 0

/-- Reads a reference to a group by number, whose first digit has been taken, or a code point of
three digits in base eight. -/
def readReference (start : Nat) (first : Char) : Reader Pattern := do
  let second ← takeUpTo Char.isDigit 1
  let octal := isOctal first && !second.isEmpty && second.all isOctal
  let third ← if octal then takeUpTo isOctal 1 else pure []
  if !third.isEmpty then
    return .char (← readOctal start (first :: second ++ third) 0) false
  else
    let number := numberIn 10 (first :: second)
    let s ← get
    if s.groups.length < number then fail (.unknownGroup number) (start + 1)
    if !isClosed s.groups number then fail .openGroup start
    checkBehind number
    return .same number

/-- Reads an escape outside a character set. -/
def readEscape (start : Nat) (c : Char) : Reader Pattern := do
  match namedKind? c, namedAnchor? c, namedChar? c with
  | some k, _, _ => return .oneOf ⟨false, [k]⟩
  | _, some a, _ => return .anchor a
  | _, _, some d => return .char d.toNat false
  | _, _, _ =>
    if c = '0' then return .char (← readOctal start [c] 2) false
    else if c.isDigit then readReference start c
    else return .char (← readEscapedChar start c) false

/-- Reads one end of a range, or a member, whose first lexeme has been taken. -/
def readMember (start : Nat) : Lexeme → Reader CharItem
  | .plain c => return .char c.toNat
  | .escaped c => readSetEscape start c
  | .dangling => fail .endInEscape start

/-- Reads the members of a character set up to its closing bracket. A bracket that comes first is a
member; a dash that comes last is one too. -/
def readMembers (opening : Nat) : Nat → List CharItem → Reader (List CharItem)
  | 0, items => return items
  | fuel + 1, items => do
    let start ← place
    match ← next with
    | none => fail .unterminatedSet opening
    | some t =>
      if t = .plain ']' && !items.isEmpty then return items
      else
        let first ← readMember start t
        if ← accept '-' then
          let middle ← place
          match ← next with
          | none => fail .unterminatedSet opening
          | some (.plain ']') => return items ++ [first, .char '-'.toNat]
          | some u =>
            let last ← readMember middle u
            let bad : Reader (List CharItem) :=
              failBefore (.badRange t.text u.text) (t.text.length + 1 + u.text.length)
            match first, last with
            | .char lo, .char hi =>
              if hi < lo then bad else readMembers opening fuel (items ++ [.range lo hi])
            | _, _ => bad
        else readMembers opening fuel (items ++ [first])

/-- Reads a character set whose opening bracket has been taken. A set of a single character is that
character. -/
def readSet (opening : Nat) : Reader Pattern := do
  let negated ← accept '^'
  let items ← readMembers opening (opening + (← get).source.length + 1) []
  match items.eraseDups with
  | [.char code] => return .char code negated
  | items => return .oneOf ⟨negated, items⟩

end StochasticGrammar.Pattern
