import StochasticGrammar.Pattern.Escape
import StochasticGrammar.Text.Classes

/-!
# Reading patterns

The written form of a pattern is read by recursive descent: alternatives of sequences of repeated
items. What alternatives have in common at the front is read once, and alternatives of single
characters become a character set.
-/

namespace StochasticGrammar.Pattern

open Reader

/-! ## Putting parts together -/

/-- An item of a sequence under reading. Items of a plain group stay together until the sequence
ends, so that they can be repeated together. -/
inductive Piece where
  | item (p : Pattern)
  | grouped (ps : List Pattern)

/-- Parts one after another as one pattern. -/
def sequenceOf : List Pattern → Pattern
  | [] => .empty
  | [p] => p
  | p :: ps => .cat p (sequenceOf ps)

/-- The items of the pieces, which come last one first. -/
def unpack (pieces : List Piece) : List Pattern :=
  pieces.reverse.flatMap fun piece =>
    match piece with
    | .item p => [p]
    | .grouped ps => ps

/-- Whether the item has no parts, so that two of them can be compared. -/
def isPlain : Pattern → Bool
  | .dot | .char _ _ | .oneOf _ | .anchor _ | .same _ => true
  | _ => false

/-- Splits off what all alternatives begin with; `first` is the first of them. -/
def splitCommon : (first : List Pattern) → (others : List (List Pattern)) →
    List Pattern × List (List Pattern)
  | [], others => ([], [] :: others)
  | p :: ps, others =>
    if isPlain p && others.all fun o => decide (o.head? = some p) then
      let (common, rest) := splitCommon ps (others.map List.tail)
      (p :: common, rest)
    else ([], (p :: ps) :: others)

/-- The members of an alternative that is a single character or a set of some. -/
def members? : List Pattern → Option (List CharItem)
  | [.char code false] => some [.char code]
  | [.oneOf ⟨false, items⟩] => some items
  | _ => none

/-- Alternatives as one pattern. -/
def eitherOf : List (List Pattern) → Pattern
  | [] => .empty
  | [ps] => sequenceOf ps
  | ps :: rest => .alt (sequenceOf ps) (eitherOf rest)

/-- Alternatives as a sequence of items. -/
def combine : List (List Pattern) → List Pattern
  | [] => []
  | [ps] => ps
  | first :: others =>
    let (common, alternatives) := splitCommon first others
    match alternatives.mapM members? with
    | some items => common ++ [.oneOf ⟨false, items.flatten.eraseDups⟩]
    | none => common ++ [eitherOf alternatives]

/-! ## Repetitions -/

/-- Reads the counts of a repetition whose opening brace has been taken. A brace that no counts
follow stands for itself, and nothing more is taken. -/
def readCounts : Reader (Option (Nat × Option Nat)) := do
  if (← peek) = some (.plain '\x7d') then return none
  let here ← get
  let start ← place
  let lo ← takeUpTo Char.isDigit here.rest.length
  let hi ← if ← accept ',' then takeUpTo Char.isDigit here.rest.length else pure lo
  if ← accept '\x7d' then
    let least := numberIn 10 lo
    let most := if hi.isEmpty then none else some (numberIn 10 hi)
    if greatestCount ≤ least ∨ most.any (fun m => decide (greatestCount ≤ m)) then
      throw .countTooLarge
    if most.any (fun m => decide (m < least)) then fail .countsReversed start
    return some (least, most)
  else
    set here
    return none

/-- Reads the sign that says how a repetition chooses its count. -/
def readAppetite : Reader Appetite := do
  if ← accept '?' then return .reluctant
  else if ← accept '+' then return .possessive
  else return .greedy

/-- Repeats the last piece. -/
def repeatLast (start : Nat) (least : Nat) (most : Option Nat) : List Piece → Reader (List Piece)
  | [] | .item (.anchor _) :: _ => fail .nothingToRepeat start
  | .item (.rep _ _ _ _) :: _ => fail .multipleRepeat start
  | .item p :: done => return .item (.rep (← readAppetite) least most p) :: done
  | .grouped ps :: done => return .item (.rep (← readAppetite) least most (sequenceOf ps)) :: done

/-! ## Flags and groups -/

/-- Whether a lexeme is a letter of any script. -/
def isLetter : Lexeme → Bool
  | .plain c => c.isAlpha || (decide (127 < c.toNat) && Text.isWord c && !Text.isDecimal c)
  | _ => false

/-- The flag that a lexeme stands for. -/
def flagOf? : Lexeme → Option Flag
  | .plain c => Flag.ofLetter? c
  | _ => none

/-- Reports a lexeme that is no flag, or that the flags end too early. -/
def failFlag {α : Type} (what : String) : Option Lexeme → Reader α
  | none => failBefore (.missing what) 0
  | some t => failBefore (if isLetter t then .unknownFlag else .missing what) t.text.length

/-- Reads flags to be turned on, the first of which has been taken, up to a sign that ends them. -/
def readFlagsOn : Nat → Flags → Flag → Reader (Flags × Char)
  | 0, on, _ => return (on, ':')
  | fuel + 1, on, flag => do
    if flag = .locale then
      failBefore (.badFlags "cannot use 'L' flag with a str pattern") 0
    let on := if on.contains flag then on else on ++ [flag]
    if flag.isScope && on.any fun f => f.isScope && f != flag then
      failBefore (.badFlags "flags 'a', 'u' and 'L' are incompatible") 0
    match ← next with
    | some (.plain ')') => return (on, ')')
    | some (.plain '-') => return (on, '-')
    | some (.plain ':') => return (on, ':')
    | t =>
      match t.bind flagOf? with
      | some flag => readFlagsOn fuel on flag
      | none => failFlag "-, : or )" t

/-- Reads flags to be turned off, the first of which has been taken, up to a colon. -/
def readFlagsOff : Nat → Flags → Flag → Reader Flags
  | 0, off, _ => return off
  | fuel + 1, off, flag => do
    if flag.isScope then
      failBefore (.badFlags "cannot turn off flags 'a', 'u' and 'L'") 0
    let off := off ++ [flag]
    match ← next with
    | some (.plain ':') => return off
    | t =>
      match t.bind flagOf? with
      | some flag => readFlagsOff fuel off flag
      | none => failFlag ":" t

/-- Reads flags whose first lexeme has been taken: the flags to be turned on and off in a group, or
none if they have been turned on for the whole pattern. -/
def readFlags (first : Option Flag) : Reader (Option (Flags × Flags)) := do
  let fuel := (← get).rest.length + 1
  let (on, last) ← match first with
    | some flag => readFlagsOn fuel [] flag
    | none => pure ([], '-')
  if last = ')' then
    modify fun s => { s with flags := s.flags ++ on }
    return none
  if on.contains .template then
    failBefore (.badFlags "cannot turn on global flag") 1
  let off ← if last = '-' then
      match ← next with
      | none => failFlag "flag" none
      | some t =>
        match flagOf? t with
        | some flag => readFlagsOff fuel [] flag
        | none => failFlag "flag" (some t)
    else pure []
  if off.contains .template then
    failBefore (.badFlags "cannot turn off global flag") 1
  if on.any off.contains then
    failBefore (.badFlags "flag turned on and off") 1
  return some (on, off)

/-- Whether a text can name a group: letters, digits and underscores, no digit first. -/
def isIdentifier (name : String) : Bool :=
  match name.toList with
  | [] => false
  | c :: cs => Text.isWord c && !Text.isDecimal c && cs.all Text.isWord

/-- Refuses a text that cannot name a group; the sign that ended it has been taken. -/
def checkName (name : String) : Reader Unit := do
  if !isIdentifier name then failBefore (.badGroupName name) (name.length + 1)

/-- The number of a named group; the sign that ended the name has been taken. -/
def groupNamed (name : String) : Reader Nat := do
  match (← get).names.lookup name with
  | some number => return number
  | none => failBefore (.unknownGroupName name) (name.length + 1)

/-- The integer that a text denotes: digits after an optional sign, with single underscores between
them and blanks around. -/
def integer? (text : String) : Option Int :=
  let trim (cs : List Char) := cs.dropWhile (·.isWhitespace)
  let cs := (trim (trim text.toList).reverse).reverse
  let (negative, cs) := match cs with
    | '-' :: cs => (true, cs)
    | '+' :: cs => (false, cs)
    | cs => (false, cs)
  let isGap (a b : Char) := a == '_' && b == '_'
  let ok := cs.all (fun c => c.isDigit || c == '_') && cs.head?.any Char.isDigit
    && cs.getLast?.any Char.isDigit && !(List.zipWith isGap cs cs.tail).any id
  let n : Int := numberIn 10 (cs.filter Char.isDigit)
  if ok then some (if negative then -n else n) else none

/-- Reads what a condition asks about: a group by name or by number. A group given by number may
come later; that there is one is checked at the end. -/
def readCondition : Reader Nat := do
  let name ← takeName ')' "group name"
  let number ←
    if isIdentifier name then groupNamed name
    else
      match integer? name with
      | some (.ofNat 0) => failBefore .badGroupNumber (name.length + 1)
      | some (.ofNat number) => do
        if 1073741823 ≤ number then failBefore (.unknownGroup number) (name.length + 1)
        let position := (← place) - name.length - 1
        modify fun s => if (s.wanted.lookup number).isSome then s
          else { s with wanted := s.wanted ++ [(number, position)] }
        pure number
      | _ => failBefore (.badGroupName name) (name.length + 1)
  checkBehind number
  return number

/-- Opens the next numbered group, with its name if it has one. -/
def openGroup (name : Option String) : Reader Nat := do
  let s ← get
  let number := s.groups.length + 1
  match name with
  | none => set { s with groups := s.groups ++ [none] }
  | some name =>
    match s.names.lookup name with
    | some earlier =>
      failBefore (.repeatedGroupName name number earlier) (name.length + 1)
    | none => set { s with groups := s.groups ++ [none], names := s.names ++ [(name, number)] }
  return number

/-- Closes a numbered group. -/
def closeGroup (number : Nat) (body : Pattern) : Reader Unit :=
  modify fun s => { s with groups := s.groups.set (number - 1) (some (body.width s.groups)) }

/-- What the signs after an opening parenthesis say about a group. -/
inductive GroupKind where
  | plain
  | numbered (name : Option String)
  | atomic
  | scoped (on off : Flags)
  | ahead (negated : Bool)
  | behind (negated : Bool)
  | conditional (number : Nat)
  /-- No group but an item. -/
  | item (p : Pattern)
  /-- No group: a comment. -/
  | remark
  /-- No group: flags for the whole pattern. -/
  | flags

/-- Takes a comment up to its closing parenthesis. -/
def skipRemark (start : Nat) : Nat → Reader Unit
  | 0 => return
  | fuel + 1 => do
    match ← next with
    | none => fail .unterminatedComment start
    | some (.plain ')') => return
    | some _ => skipRemark start fuel

/-- Takes a comment up to the end of its line. -/
def skipLine : Nat → Reader Unit
  | 0 => return
  | fuel + 1 => do
    match ← next with
    | none | some (.plain '\n') => return
    | some _ => skipLine fuel

/-- Reads the signs after an opening parenthesis at `start`. -/
def readGroupKind (start : Nat) : Reader GroupKind := do
  if !(← accept '?') then return .numbered none
  match ← next with
  | none => failBefore .unexpectedEnd 0
  | some (.plain ':') => return .plain
  | some (.plain '>') => return .atomic
  | some (.plain '=') => return .ahead false
  | some (.plain '!') => return .ahead true
  | some (.plain '#') =>
    skipRemark start ((← get).rest.length + 1)
    return .remark
  | some (.plain '(') => return .conditional (← readCondition)
  | some (.plain '<') =>
    match ← next with
    | none => failBefore .unexpectedEnd 0
    | some (.plain '=') => return .behind false
    | some (.plain '!') => return .behind true
    | some t => failBefore (.unknownExtension ("<" ++ t.text)) (t.text.length + 2)
  | some (.plain 'P') =>
    if ← accept '<' then
      let name ← takeName '>' "group name"
      checkName name
      return .numbered (some name)
    else if ← accept '=' then
      let name ← takeName ')' "group name"
      checkName name
      let number ← groupNamed name
      if !isClosed (← get).groups number then failBefore .openGroup (name.length + 1)
      checkBehind number
      return .item (.same number)
    else
      match ← next with
      | none => failBefore .unexpectedEnd 0
      | some t => failBefore (.unknownExtension ("P" ++ t.text)) (t.text.length + 2)
  | some (.plain '-') =>
    match ← readFlags none with
    | some (on, off) => return .scoped on off
    | none => return .flags
  | some t =>
    match flagOf? t with
    | none => failBefore (.unknownExtension t.text) (t.text.length + 1)
    | some flag =>
      match ← readFlags (some flag) with
      | some (on, off) => return .scoped on off
      | none => return .flags

/-- Whether the whole pattern is read with blanks and comments left out. -/
def isVerbose : Reader Bool := do
  return (← get).flags.contains .verbose

/-- Whether a lexeme is a blank that may be left out. -/
def isLayout : Lexeme → Bool
  | .plain c => c == ' ' || c == '\t' || c == '\n' || c == '\r' || c == '\x0b' || c == '\x0c'
  | _ => false

/-! ## Sequences and alternatives -/

mutual

/-- Reads alternatives divided by bars. `outer` says that no group is open, and `first` that nothing
has been read yet. -/
def readAlternatives : Nat → (verbose outer first : Bool) → Reader (List (List Pattern))
  | 0, _, _, _ => return []
  | fuel + 1, verbose, outer, first => do
    let items ← readSequence fuel verbose (outer && first) []
    if ← accept '|' then
      let verbose ← if outer then isVerbose else pure verbose
      return items :: (← readAlternatives fuel verbose outer false)
    else return [items]

/-- Reads the contents of a group and its closing parenthesis. -/
def readBody : Nat → (start : Nat) → (verbose : Bool) → Reader (List Pattern)
  | 0, _, _ => return []
  | fuel + 1, start, verbose => do
    let body := combine (← readAlternatives fuel verbose false false)
    if ← accept ')' then return body else fail .unterminatedGroup start

/-- Reads the contents of a group of a known kind, which is an item unless it is only a remark or
flags. -/
def readGroup : Nat → (start : Nat) → (verbose : Bool) → GroupKind → Reader (Option Piece)
  | 0, _, _, _ => return none
  | _ + 1, _, _, .remark | _ + 1, _, _, .flags => return none
  | _ + 1, _, _, .item p => return some (.item p)
  | fuel + 1, start, verbose, .plain => do
    return some (.grouped (← readBody fuel start verbose))
  | fuel + 1, start, verbose, .atomic => do
    return some (.item (.atomic (sequenceOf (← readBody fuel start verbose))))
  | fuel + 1, start, verbose, .scoped on off => do
    let verbose := (verbose || on.contains .verbose) && !off.contains .verbose
    return some (.item (.scoped on off (sequenceOf (← readBody fuel start verbose))))
  | fuel + 1, start, verbose, .numbered name => do
    let number ← openGroup name
    let body := sequenceOf (← readBody fuel start verbose)
    closeGroup number body
    return some (.item (.group number body))
  | fuel + 1, start, verbose, .ahead negated => do
    return some (.item (.look none negated (sequenceOf (← readBody fuel start verbose))))
  | fuel + 1, start, verbose, .behind negated => do
    let outside := (← get).behind
    modify fun s => { s with behind := some (outside.getD s.groups.length) }
    let body := sequenceOf (combine (← readAlternatives fuel verbose false false))
    modify fun s => { s with behind := outside }
    if !(← accept ')') then fail .unterminatedGroup start
    return some (.item (.look (some (body.width (← get).groups).least) negated body))
  | fuel + 1, start, verbose, .conditional number => do
    let yes ← readSequence fuel verbose false []
    let no ←
      if ← accept '|' then
        let no ← readSequence fuel verbose false []
        if (← peek) = some (.plain '|') then failBefore .tooManyBranches 0
        pure no
      else pure []
    if !(← accept ')') then fail .unterminatedGroup start
    return some (.item (.choice number (sequenceOf yes) (sequenceOf no)))

/-- Reads items, last one first, up to a bar, a closing parenthesis or the end. Flags for the whole
pattern are allowed only where `first` says so and no item has come yet. -/
def readSequence : Nat → (verbose first : Bool) → List Piece → Reader (List Pattern)
  | 0, _, _, done => return unpack done
  | fuel + 1, verbose, first, done => do
    let start ← place
    match ← peek with
    | none | some (.plain '|') | some (.plain ')') => return unpack done
    | some t =>
      let _ ← next
      if verbose && isLayout t then readSequence fuel verbose first done
      else if verbose && t = .plain '#' then
        skipLine ((← get).rest.length + 1)
        readSequence fuel verbose first done
      else
        match t with
        | .dangling => return unpack done
        | .escaped c => readSequence fuel verbose first (.item (← readEscape start c) :: done)
        | .plain '.' => readSequence fuel verbose first (.item .dot :: done)
        | .plain '^' => readSequence fuel verbose first (.item (.anchor .lineStart) :: done)
        | .plain '$' => readSequence fuel verbose first (.item (.anchor .lineEnd) :: done)
        | .plain '[' => readSequence fuel verbose first (.item (← readSet start) :: done)
        | .plain '*' => readSequence fuel verbose first (← repeatLast start 0 none done)
        | .plain '+' => readSequence fuel verbose first (← repeatLast start 1 none done)
        | .plain '?' => readSequence fuel verbose first (← repeatLast start 0 (some 1) done)
        | .plain '\x7b' =>
          match ← readCounts with
          | some (least, most) =>
            readSequence fuel verbose first (← repeatLast start least most done)
          | none => readSequence fuel verbose first (.item (.char 0x7b false) :: done)
        | .plain '(' =>
          let kind ← readGroupKind start
          let isFlags := kind matches .flags
          if isFlags && !(first && done.isEmpty) then fail .lateFlags start
          let verbose ← if isFlags then isVerbose else pure verbose
          match ← readGroup fuel start verbose kind with
          | some piece => readSequence fuel verbose first (piece :: done)
          | none => readSequence fuel verbose first done
        | .plain c => readSequence fuel verbose first (.item (.char c.toNat false) :: done)

end

/-- The flags under which a pattern is matched: letters are those of all scripts unless they are
restricted to ASCII. -/
def settleFlags (flags : Flags) : Except Error Flags :=
  if flags.contains .locale then .error .localeLetters
  else if !flags.contains .ascii then .ok (flags ++ [.unicode])
  else if flags.contains .unicode then .error .clashingLetters
  else .ok flags

/-- Reads a whole pattern. What needs the whole of it is checked at the end. -/
def readAll (fuel : Nat) : Reader Pattern := do
  checkAhead
  let p := sequenceOf (combine (← readAlternatives fuel (← isVerbose) true true))
  let flags ← settleFlags (← get).flags
  let s ← get
  if !s.rest.isEmpty then failBefore .unbalancedGroup 0
  match s.wanted.find? fun w => decide (s.groups.length < w.1) with
  | some (number, position) => fail (.unknownGroup number) position
  | none => pure ()
  check s.groups flags p
  return .scoped flags [] p

/-- The pattern that a text denotes under some flags, which are part of it. -/
def parse (flags : Flags) (source : String) : Except Error Pattern :=
  (readAll (5 * source.length + 5)).run' ⟨lexemes 0 source.toList, source, flags, [], [], none, []⟩

end StochasticGrammar.Pattern
