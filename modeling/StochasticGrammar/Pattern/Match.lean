import StochasticGrammar.Pattern.Reader
import StochasticGrammar.Text.Uppercase

/-!
# Matching patterns

A pattern leads from a place in a text to other places, which are listed in the order in which they
are preferred, each once. The whole text matches when one of them is its end. Listing a place once
bounds every repetition by the length of the text; the order matters only where a part may be tried
in its first way alone.
-/

namespace StochasticGrammar.Pattern

/-! ## Characters -/

/-- Lower-case characters that count as equal when case is ignored, beyond equal lower-case
forms. -/
def lowercaseTwins : List (Nat × List Nat) :=
  [(105, [305]), (115, [383]), (181, [956]), (305, [105]), (383, [115]), (837, [953, 8126]),
  (912, [8147]), (944, [8163]), (946, [976]), (949, [1013]), (952, [977]), (953, [837, 8126]),
  (954, [1008]), (956, [181]), (960, [982]), (961, [1009]), (962, [963]), (963, [962]),
  (966, [981]), (976, [946]), (977, [952]), (981, [966]), (982, [960]), (1008, [954]),
  (1009, [961]), (1013, [949]), (1074, [7296]), (1076, [7297]), (1086, [7298]), (1089, [7299]),
  (1090, [7300, 7301]), (1098, [7302]), (1123, [7303]), (7296, [1074]), (7297, [1076]),
  (7298, [1086]), (7299, [1089]), (7300, [1090, 7301]), (7301, [1090, 7300]), (7302, [1098]),
  (7303, [1123]), (7304, [42571]), (7777, [7835]), (7835, [7777]), (8126, [837, 953]),
  (8147, [912]), (8163, [944]), (42571, [7304]), (64261, [64262]), (64262, [64261])]

/-- The letters that a pattern is about. -/
structure Letters where
  /-- Whether case is ignored. -/
  ignoreCase : Bool
  /-- Whether only the letters, digits and blanks of ASCII count as such. -/
  ascii : Bool

namespace Letters

variable (l : Letters)

/-- The lower-case form used when case is ignored. -/
def lower (code : Nat) : Nat :=
  if l.ascii then (if 65 ≤ code ∧ code ≤ 90 then code + 32 else code) else Text.lowercase code

/-- Whether a code point has case. -/
def isCased (code : Nat) : Bool :=
  if l.ascii then decide (65 ≤ code ∧ code ≤ 90 ∨ 97 ≤ code ∧ code ≤ 122) else Text.isCased code

/-- Whether a range of code points holds one that has case. -/
def hasCased (lo hi : Nat) : Bool :=
  if l.ascii then decide (lo ≤ 90 ∧ 65 ≤ hi ∨ lo ≤ 122 ∧ 97 ≤ hi) else Text.hasCased lo hi

/-- The lower-case forms that count as equal to a lower-case form, itself first. -/
def twins (code : Nat) : List Nat :=
  if l.ascii then [code] else code :: (lowercaseTwins.lookup code).getD []

/-- The code points whose lower-case form is the given one. -/
def sources (code : Nat) : List Nat :=
  if l.ascii then
    if 97 ≤ code ∧ code ≤ 122 then [code, code - 32]
    else if 65 ≤ code ∧ code ≤ 90 then [] else [code]
  else Text.lowercaseSources code

/-- Whether the character is of the named class. -/
def isKind (k : CharKind) (c : Char) : Bool :=
  if l.ascii then
    match k with
    | .digit => c.isDigit
    | .word => c.isAlphanum || c == '_'
    | .blank => c == ' ' || (decide (9 ≤ c.toNat) && decide (c.toNat ≤ 13))
  else
    match k with
    | .digit => Text.isDecimal c
    | .word => Text.isWord c
    | .blank => Text.isBlank c

/-- Whether a character counts as equal to a given one. -/
def matchesChar (code : Nat) (c : Char) : Bool :=
  if l.ignoreCase && l.isCased code then (l.twins (l.lower code)).contains (l.lower c.toNat)
  else c.toNat == code

/-- Whether a member of a set has case. Members beyond the basic plane count as if they had. -/
def isCasedItem : CharItem → Bool
  | .char code => l.isCased code || decide (0xffff < l.lower code)
  | .range lo hi => l.hasCased lo hi || decide (0xffff < hi)
  | .kind _ _ => false

/-- Whether a lower-case form belongs to a member of a set when case is ignored. Within the basic
plane this is so for every form of every character; beyond it a single character stands for itself
only, and a range for the characters with a lower-case or upper-case form in it. -/
def isCaselessMember (code : Nat) : CharItem → Bool
  | .char d =>
    if 0xffff < l.lower d then code == d else (l.twins (l.lower d)).contains code
  | .range lo hi =>
    ((l.twins code).flatMap l.sources).any (fun d => decide (lo ≤ d ∧ d ≤ min hi 0xffff))
      || (decide (0xffff < hi) && (decide (lo ≤ code ∧ code ≤ hi)
        || decide (lo ≤ Text.uppercase code ∧ Text.uppercase code ≤ hi)))
  | .kind k negated => l.isKind k (Char.ofNat code) != negated

/-- Whether a character belongs to a member of a set when case counts. -/
def isMember (c : Char) : CharItem → Bool
  | .char code => c.toNat == code
  | .range lo hi => decide (lo ≤ c.toNat ∧ c.toNat ≤ hi)
  | .kind k negated => l.isKind k c != negated

/-- Whether a character belongs to a set. Case is ignored only if some member has case. -/
def isIn (set : CharSet) (c : Char) : Bool :=
  let found :=
    if l.ignoreCase && set.items.any l.isCasedItem then
      set.items.any (l.isCaselessMember (l.lower c.toNat))
    else set.items.any (l.isMember c)
  found != set.negated

/-- Whether two characters of a text count as equal. -/
def isSame (a b : Char) : Bool :=
  if l.ignoreCase then l.lower a.toNat == l.lower b.toNat else a == b

end Letters

/-- The letters that some flags are about. -/
def lettersOf (flags : Flags) : Letters :=
  ⟨flags.contains .ignoreCase, !flags.contains .unicode⟩

/-! ## Places -/

/-- A place in a text, with the spans of the groups that have been matched on the way. -/
structure Spot where
  index : Nat
  groups : List (Nat × Nat × Nat)
  deriving DecidableEq, Repr

/-- The spot so many characters further on. -/
def Spot.move (s : Spot) (n : Nat) : Spot :=
  { s with index := s.index + n }

/-- The spot after a group that began at `start`. -/
def Spot.mark (s : Spot) (number start : Nat) : Spot :=
  { s with groups :=
      (number, start, s.index) :: s.groups.filter fun g => decide (g.1 ≠ number) }

/-- Whether the condition holds at a place of the text. There is no word edge in an empty text, nor
the lack of one. -/
def holds (flags : Flags) (text : Array Char) (i : Nat) : Anchor → Bool
  | .textStart => i == 0
  | .textEnd => i == text.size
  | .lineStart => i == 0 || (flags.contains .multiline && text[i - 1]? == some '\n')
  | .lineEnd =>
    i == text.size
      || (text[i]? == some '\n' && (flags.contains .multiline || i + 1 == text.size))
  | .wordEdge negated =>
    let isWord := (lettersOf flags).isKind .word
    let before := decide (0 < i) && (text[i - 1]?).any isWord
    let after := (text[i]?).any isWord
    decide (0 < text.size) && (before != after) != negated

/-- The spot after a character that satisfies a condition. -/
def takeIf (p : Char → Bool) (text : Array Char) (s : Spot) : List Spot :=
  if (text[s.index]?).any p then [s.move 1] else []

/-! ## Repetition -/

/-- How far a repetition has been followed: where it has been after how many rounds, and the spots
it leads to, last one first. -/
structure Trail where
  seen : List (Nat × Spot)
  found : List Spot

/-- Adds a spot that the repetition leads to. -/
def Trail.add (t : Trail) (s : Spot) : Trail :=
  { t with found := s :: t.found }

/-- Follows a repetition from a spot that was reached in `count` rounds. A round that takes no
character is the last one, unless more rounds are asked for. Once the least count is reached, an
unbounded repetition no longer counts. -/
def follow (step : Spot → List Spot) (reluctant : Bool) (least : Nat) (most : Option Nat) :
    Nat → Nat → Trail → Spot → Trail
  | 0, _, t, _ => t
  | fuel + 1, count, t, s =>
    if t.seen.contains (count, s) then t
    else
      let t : Trail := { t with seen := (count, s) :: t.seen }
      let next := if most.isNone then min (count + 1) least else count + 1
      let onward (t : Trail) : Trail :=
        if most.any (fun m => decide (m ≤ count)) then t
        else (step s).foldl (fun t e =>
          if e.index = s.index ∧ least ≤ count then t.add e
          else follow step reluctant least most fuel next t e) t
      if count < least then onward t
      else if reluctant then onward (t.add s)
      else (onward t).add s

/-- The spots that a repetition leads to, in order of preference. -/
def repeated (step : Spot → List Spot) (reluctant : Bool) (least : Nat) (most : Option Nat)
    (fuel : Nat) (s : Spot) : List Spot :=
  (follow step reluctant least most fuel 0 ⟨[], []⟩ s).found.reverse.eraseDups

/-- The spot that a repetition leads to which takes the first way in every round and gives nothing
back, if it reaches its least count. -/
def devoured (step : Spot → List Spot) (least : Nat) (most : Option Nat) :
    Nat → Nat → Spot → List Spot
  | 0, _, _ => []
  | fuel + 1, count, s =>
    if most.any (fun m => decide (m ≤ count)) then [s]
    else
      match (step s).head? with
      | none => if least ≤ count then [s] else []
      | some e =>
        if e.index = s.index ∧ least ≤ count then [e]
        else devoured step least most fuel (count + 1) e

/-! ## Patterns -/

/-- Whether a part of the text counts as equal to the text that starts at a place. -/
def isRepeatOf (l : Letters) (text : Array Char) (start len i : Nat) : Bool :=
  decide (i + len ≤ text.size) && (List.range len).all fun k =>
    match text[start + k]?, text[i + k]? with
    | some a, some b => l.isSame a b
    | _, _ => false

/-- The spots that a pattern leads to from a spot, in order of preference. Counts beyond the length
of the text change nothing more, since a round that takes no character may be repeated or left
out. -/
def ends (text : Array Char) : Flags → Pattern → Spot → List Spot
  | _, .empty, s => [s]
  | flags, .dot, s => takeIf (fun c => flags.contains .dotAll || c != '\n') text s
  | flags, .char code negated, s =>
    takeIf (fun c => (lettersOf flags).matchesChar code c != negated) text s
  | flags, .oneOf set, s => takeIf ((lettersOf flags).isIn set) text s
  | flags, .anchor a, s => if holds flags text s.index a then [s] else []
  | flags, .cat p q, s => ((ends text flags p s).flatMap (ends text flags q)).eraseDups
  | flags, .alt p q, s => (ends text flags p s ++ ends text flags q s).eraseDups
  | flags, .rep appetite least most body, s =>
    let bound := text.size + 1
    let most := if most.any (fun m => decide (least + bound < m)) then none else most
    let most := most.map fun m => min least bound + (m - least)
    let least := min least bound
    let step := ends text flags body
    match appetite with
    | .possessive => devoured step least most (2 * bound + 2) 0 s
    | appetite => repeated step (decide (appetite = .reluctant)) least most (2 * bound + 2) s
  | flags, .group number body, s => (ends text flags body s).map (·.mark number s.index)
  | flags, .scoped on off body, s => ends text (Flag.change flags on off) body s
  | flags, .atomic body, s => (ends text flags body s).take 1
  | flags, .look back negated body, s =>
    let distance := back.getD 0
    let found :=
      if s.index < distance then none
      else (ends text flags body { s with index := s.index - distance }).head?
    match found with
    | none => if negated then [s] else []
    | some e => if negated then [] else [{ e with index := s.index }]
  | flags, .same number, s =>
    match s.groups.lookup number with
    | none => []
    | some (start, stop) =>
      if isRepeatOf (lettersOf flags) text start (stop - start) s.index then
        [s.move (stop - start)]
      else []
  | flags, .choice number yes no, s =>
    if (s.groups.lookup number).isSome then ends text flags yes s else ends text flags no s

/-- Whether the pattern refers to a group. -/
def refersBack : Pattern → Bool
  | .empty | .dot | .char _ _ | .oneOf _ | .anchor _ => false
  | .same _ | .choice _ _ _ => true
  | .cat p q | .alt p q => p.refersBack || q.refersBack
  | .rep _ _ _ body | .group _ body | .scoped _ _ body | .atomic body | .look _ _ body =>
    body.refersBack

/-- The pattern without the numbers of its groups. -/
def unnumbered : Pattern → Pattern
  | .cat p q => .cat p.unnumbered q.unnumbered
  | .alt p q => .alt p.unnumbered q.unnumbered
  | .rep appetite least most body => .rep appetite least most body.unnumbered
  | .group _ body => body.unnumbered
  | .scoped on off body => .scoped on off body.unnumbered
  | .atomic body => .atomic body.unnumbered
  | .look back negated body => .look back negated body.unnumbered
  | p => p

/-- Whether the pattern matches the whole text. Groups are followed only if something refers to
them. -/
def matchesAll (p : Pattern) (s : String) : Bool :=
  let text := s.toList.toArray
  let p := if p.refersBack then p else p.unnumbered
  (ends text [] p ⟨0, []⟩).any fun e => e.index == text.size

end StochasticGrammar.Pattern
