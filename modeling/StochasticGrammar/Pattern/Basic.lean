import StochasticGrammar.Text.Quoted

/-!
# Patterns

The abstract form of a pattern over characters, the flags it is matched under, and the ways its
written form can be faulty. Characters are code points, because a pattern can name ones that no text
holds.
-/

namespace StochasticGrammar

/-- The named classes of characters that a pattern can mention. -/
inductive CharKind where
  | digit
  | word
  | blank
  deriving DecidableEq, Repr

/-- One member of a character set. -/
inductive CharItem where
  | char (code : Nat)
  | range (first last : Nat)
  | kind (k : CharKind) (negated : Bool)
  deriving DecidableEq, Repr

/-- A set of characters, or the complement of one. -/
structure CharSet where
  negated : Bool
  items : List CharItem
  deriving DecidableEq, Repr

/-- Conditions on a place in the text. -/
inductive Anchor where
  | lineStart
  | lineEnd
  | textStart
  | textEnd
  | wordEdge (negated : Bool)
  deriving DecidableEq, Repr

/-- How a repetition chooses its count: as many as possible, as few as possible, or as many as
possible without ever giving one back. -/
inductive Appetite where
  | greedy
  | reluctant
  | possessive
  deriving DecidableEq, Repr

namespace Pattern

/-- A choice about how a pattern is read or matched. -/
inductive Flag where
  | template
  | ignoreCase
  | locale
  | multiline
  | dotAll
  | unicode
  | verbose
  | ascii
  deriving DecidableEq, Repr

/-- The flags that are set. -/
abbrev Flags := List Flag

namespace Flag

/-- The flags with the bit and, if they can be written into a pattern, the letter of each. -/
def all : List (Flag × Nat × Char) :=
  [(template, 1, 't'), (ignoreCase, 2, 'i'), (locale, 4, 'L'), (multiline, 8, 'm'),
    (dotAll, 16, 's'), (unicode, 32, 'u'), (verbose, 64, 'x'), (ascii, 256, 'a')]

/-- The flags that a number packs, a bit each. -/
def ofBits (n : Int) : Flags :=
  (all.filter fun f => decide (n / (f.2.1 : Int) % 2 = 1)).map (·.1)

/-- The flag that a letter stands for. -/
def ofLetter? (c : Char) : Option Flag :=
  (all.find? fun f => f.2.2 == c).map (·.1)

/-- Whether the flag says what counts as a letter. At most one of these can be set. -/
def isScope : Flag → Bool
  | locale | unicode | ascii => true
  | _ => false

/-- The flags with some turned on and others off. A new scope replaces the old one. -/
def change (flags on off : Flags) : Flags :=
  let kept := if on.any isScope then flags.filter (!·.isScope) else flags
  (kept ++ on).filter fun f => !off.contains f

end Flag
end Pattern

/-- A pattern. A repetition without a greatest count is unbounded. -/
inductive Pattern where
  | empty
  | dot
  /-- A character, or with `negated` any other one. -/
  | char (code : Nat) (negated : Bool)
  /-- A member of a set. -/
  | oneOf (set : CharSet)
  | anchor (a : Anchor)
  | cat (first second : Pattern)
  | alt (first second : Pattern)
  | rep (appetite : Appetite) (least : Nat) (most : Option Nat) (body : Pattern)
  /-- A numbered group, whose text can be referred to. -/
  | group (number : Nat) (body : Pattern)
  /-- A part that is matched under changed flags. -/
  | scoped (on off : Pattern.Flags) (body : Pattern)
  /-- A part of which only the first way to match is tried. -/
  | atomic (body : Pattern)
  /-- A condition on the text ahead, or on the text that starts so many characters back. -/
  | look (back : Option Nat) (negated : Bool) (body : Pattern)
  /-- The text of a group once more. -/
  | same (number : Nat)
  /-- One of two parts, depending on whether a group has a text. -/
  | choice (number : Nat) (yes no : Pattern)
  deriving DecidableEq, Repr

namespace Pattern

/-- What is wrong with a written pattern. -/
inductive Fault where
  | endInEscape
  | badEscape (text : String)
  | incompleteEscape (text : String)
  | octalTooLarge (text : String)
  | unknownGroup (number : Nat)
  | openGroup
  | groupBehind
  | missing (what : String)
  | unterminatedName (terminator : Char)
  | unknownCharacterName (name : String)
  | badGroupName (name : String)
  | unknownGroupName (name : String)
  | repeatedGroupName (name : String) (number earlier : Nat)
  | badGroupNumber
  | unterminatedSet
  | badRange (first last : String)
  | nothingToRepeat
  | multipleRepeat
  | countsReversed
  | unterminatedGroup
  | unterminatedComment
  | unbalancedGroup
  | unexpectedEnd
  | unknownExtension (text : String)
  | tooManyBranches
  | lateFlags
  | unknownFlag
  | badFlags (why : String)
  | lookBehindWidth
  | lookBehindTooFar
  | templateRepeat (appetite : Appetite)
  deriving DecidableEq, Repr

/-- The wording of a fault. -/
def Fault.message : Fault → String
  | endInEscape => "bad escape (end of pattern)"
  | badEscape text => "bad escape " ++ text
  | incompleteEscape text => "incomplete escape " ++ text
  | octalTooLarge text => "octal escape value " ++ text ++ " outside of range 0-0o377"
  | unknownGroup number => "invalid group reference " ++ toString number
  | openGroup => "cannot refer to an open group"
  | groupBehind => "cannot refer to group defined in the same lookbehind subpattern"
  | missing what => "missing " ++ what
  | unterminatedName terminator =>
    "missing " ++ String.singleton terminator ++ ", unterminated name"
  | unknownCharacterName name => "undefined character name " ++ Text.quoted name
  | badGroupName name => "bad character in group name " ++ Text.quoted name
  | unknownGroupName name => "unknown group name " ++ Text.quoted name
  | repeatedGroupName name number earlier =>
    "redefinition of group name " ++ Text.quoted name ++ " as group " ++ toString number
      ++ "; was group " ++ toString earlier
  | badGroupNumber => "bad group number"
  | unterminatedSet => "unterminated character set"
  | badRange first last => "bad character range " ++ first ++ "-" ++ last
  | nothingToRepeat => "nothing to repeat"
  | multipleRepeat => "multiple repeat"
  | countsReversed => "min repeat greater than max repeat"
  | unterminatedGroup => "missing ), unterminated subpattern"
  | unterminatedComment => "missing ), unterminated comment"
  | unbalancedGroup => "unbalanced parenthesis"
  | unexpectedEnd => "unexpected end of pattern"
  | unknownExtension text => "unknown extension ?" ++ text
  | tooManyBranches => "conditional backref with more than two branches"
  | lateFlags => "global flags not at the start of the expression"
  | unknownFlag => "unknown flag"
  | badFlags why => "bad inline flags: " ++ why
  | lookBehindWidth => "look-behind requires fixed-width pattern"
  | lookBehindTooFar => "looks too much behind"
  | templateRepeat .greedy => "internal: unsupported template operator MAX_REPEAT"
  | templateRepeat .reluctant => "internal: unsupported template operator MIN_REPEAT"
  | templateRepeat .possessive => "internal: unsupported template operator POSSESSIVE_REPEAT"

/-- Why a pattern cannot be used. -/
inductive Error where
  /-- A fault at a place of its written form. -/
  | written (fault : Fault) (position : Nat) (source : String)
  /-- A fault of the pattern as a whole. -/
  | unusable (fault : Fault)
  /-- A repetition asks for more than can be counted. -/
  | countTooLarge
  /-- The letters of a locale were asked for. -/
  | localeLetters
  /-- The letters of all scripts and those of ASCII only were both asked for. -/
  | clashingLetters
  deriving DecidableEq, Repr

/-- The wording of an error. A fault is given with its place, also by line and column if the pattern
has several lines. -/
def Error.message : Error → String
  | written fault position source =>
    let before := source.toList.take position
    let line := before.count '\n' + 1
    let column := (before.reverse.takeWhile (· != '\n')).length + 1
    let place := fault.message ++ " at position " ++ toString position
    if source.toList.contains '\n' then
      place ++ " (line " ++ toString line ++ ", column " ++ toString column ++ ")"
    else place
  | unusable fault => fault.message
  | countTooLarge => "the repetition number is too large"
  | localeLetters => "cannot use LOCALE flag with a str pattern"
  | clashingLetters => "ASCII and UNICODE flags are incompatible"

end Pattern
end StochasticGrammar
