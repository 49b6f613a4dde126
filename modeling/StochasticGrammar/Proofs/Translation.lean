import StochasticGrammar.Parser.Best
import StochasticGrammar.Proofs.Compiled

/-!
# Translating symbols and scores

A parser compares symbols by `==` only and handles scores through their algebra only. So it does not
notice when symbols are spelled in another way, or when scores are recoded into another algebra one
to one and with all operations. A `Translation` is such a pair of changes. This file applies it to
everything that symbols and scores occur in, and shows that it keeps identity, look-ups in tables
and what is done with a column.

> `rule_beq`, `state_beq`: what is the same stays the same, and what is not does not become so.

> `find?_column`, `alter_column`: a column is read and changed in translation as it was before.
-/

namespace StochasticGrammar

variable {P W W' : Type}

/-- Equal categories take the same tokens. -/
theorem Category.accepts_congr {a b : Category} (h : (a == b) = true) (token : Payload) :
    a.accepts token = b.accepts token := by
  have hcanonical := (Category.beq_iff_canonical_eq a b).mp h
  cases a with
  | terminal s =>
    cases b with
    | terminal t =>
      have heq : s.canonical = t.canonical := Category.terminal.inj hcanonical
      cases s with
      | exact v =>
        cases t with
        | exact w =>
          have hvw : (v == w) = true :=
            (Payload.beq_iff_canonical_eq v w).mpr (Terminal.exact.inj heq)
          show Except.ok (token == v) = .ok (token == w)
          rw [BEq.congr_right hvw]
        | _ => cases heq
      | _ =>
        cases t <;> cases heq
        rfl
    | _ => cases hcanonical
  | _ =>
    cases b <;> cases hcanonical
    rfl

/-- Another spelling of symbols, together with another coding of scores. -/
structure Translation [Probability P] (A : ScoreAlgebra P W) (A' : ScoreAlgebra P W') where
  symbol : Category → Category
  score : W → W'
  /-- A symbol is spelled in another way only. -/
  same : ∀ c, (symbol c == c) = true
  injective : Function.Injective score
  zero : A'.zero = score A.zero
  one : A'.one = score A.one
  add : ∀ a b, A'.add (score a) (score b) = score (A.add a b)
  mul : ∀ a b, A'.mul (score a) (score b) = score (A.mul a b)
  lt : ∀ a b, A'.lt (score a) (score b) = A.lt a b
  ofProbability : ∀ {p : P}, 0 ≤ p → A'.ofProbability p = score (A.ofProbability p)
  toProbability : ∀ w, A'.toProbability (score w) = A.toProbability w

namespace Translation

section Definitions

variable [Probability P] {A : ScoreAlgebra P W} {A' : ScoreAlgebra P W'} (T : Translation A A')

/-! ## Rules, states and charts in translation -/

/-- The symbols of a right side are respelled. What a rule expands is never spelled in more than one
way. -/
def head (h : RuleHead) : RuleHead :=
  ⟨h.kind, h.lhs, h.rhs.map T.symbol⟩

/-- The numbers of a rule stay, and its score is recoded. -/
def body (b : RuleBody P W) : RuleBody P W' :=
  ⟨T.head b.head, b.probability, T.score b.weight, b.omitted, b.mark⟩

/-- A rule in translation, together with the rules it was derived from. -/
def rule : Rule P W → Rule P W'
  | .given b => .given (T.body b)
  | .derived b s => .derived (T.body b) (rule s)

/-- A production in translation: its rule, and its best score recoded. -/
def production (q : Production P W) : Production P W' :=
  ⟨T.rule q.rule, T.score q.best⟩

/-- A state stays where it is, over the translated rule. -/
def state (s : State P W) : State P W' :=
  ⟨s.origin, s.dot, s.position, T.rule s.rule⟩

/-- A back pointer leads to the translated states, over the same token. -/
def pointer (b : Backpointer P W) : Backpointer P W' :=
  ⟨b.kind, T.score b.score, b.previous.map T.state, b.completed.map T.state, b.token⟩

/-- A state with its scores recoded. -/
def cell (c : Cell P W) : Cell P W' :=
  ⟨T.state c.state, T.score c.forward, T.score c.inner, c.best.map T.pointer⟩

/-- A column in translation holds its states in the same order. -/
def column (col : Column P W) : Column P W' :=
  col.map T.cell

/-- A chart in translation, column by column. -/
def chart (chart : Chart P W) : Chart P W' :=
  ⟨chart.columns.map T.column⟩

/-- A table of chains with its scores recoded. -/
def chains (table : Table Category (Table Category W)) : Table Category (Table Category W') :=
  table.map fun row => (row.1, row.2.map fun entry => (entry.1, T.score entry.2))

/-- The rules of a category are kept under the same name. -/
def index (index : RuleIndex P W) : RuleIndex P W' :=
  index.map fun entry => (entry.1, entry.2.map T.rule)

/-- The rule that makes a category empty is translated. How probably it does is a number and
stays. -/
def choices (best : Empty.Choices P W) : Empty.Choices P W' :=
  best.map fun entry => (entry.1, (entry.2.1, T.rule entry.2.2))

/-- The grammar over the translated rules. What was computed from names and numbers alone stays as
it is. -/
def grammar (G : Grammar P W) : Grammar P W' where
  algebra := A'
  rules := G.rules.map T.rule
  index := T.index G.index
  nullable := G.nullable
  masses := G.masses
  choices := T.choices G.choices
  productions := G.productions.map fun entry => (entry.1, entry.2.map T.production)
  leftCorners := T.chains G.leftCorners
  unitChains := T.chains G.unitChains

/-- A parser at the same position, over the translated grammar and chart. -/
def parser (p : Parser P W) : Parser P W' :=
  ⟨T.grammar p.grammar, T.symbol p.goal, T.chart p.chart, p.position, T.score p.prefixScore⟩

/-! ## Parts -/

@[simp] theorem body_rule (r : Rule P W) : (T.rule r).body = T.body r.body := by
  cases r <;> rfl

@[simp] theorem source?_rule (r : Rule P W) : (T.rule r).source? = r.source?.map T.rule := by
  cases r <;> rfl

@[simp] theorem head_rule (r : Rule P W) : (T.rule r).head = T.head r.head := by
  rw [Rule.head, body_rule]
  rfl

@[simp] theorem lhs_rule (r : Rule P W) : (T.rule r).lhs = r.lhs := by
  rw [Rule.lhs, head_rule]
  rfl

@[simp] theorem rhs_rule (r : Rule P W) : (T.rule r).rhs = r.rhs.map T.symbol := by
  rw [Rule.rhs, head_rule]
  rfl

@[simp] theorem kind_rule (r : Rule P W) : (T.rule r).kind = r.kind := by
  rw [Rule.kind, head_rule]
  rfl

@[simp] theorem probability_rule (r : Rule P W) : (T.rule r).probability = r.probability := by
  rw [Rule.probability, body_rule]
  rfl

@[simp] theorem weight_rule (r : Rule P W) : (T.rule r).weight = T.score r.weight := by
  rw [Rule.weight, body_rule]
  rfl

@[simp] theorem omitted_rule (r : Rule P W) : (T.rule r).omitted = r.omitted := by
  rw [Rule.omitted, body_rule]
  rfl

@[simp] theorem next?_state (s : State P W) : (T.state s).next? = s.next?.map T.symbol := by
  rw [State.next?, state, rhs_rule, List.getElem?_map]
  rfl

@[simp] theorem isComplete_state (s : State P W) : (T.state s).isComplete = s.isComplete := by
  rw [State.isComplete, state, rhs_rule, List.length_map]
  rfl

@[simp] theorem advance_state (s : State P W) (k : Nat) :
    (T.state s).advance k = T.state (s.advance k) :=
  rfl

@[simp] theorem predicted_state (r : Rule P W) (k : Nat) :
    State.predicted (T.rule r) k = T.state (.predicted r k) :=
  rfl

/-! ## Scores -/

/-- Of two scores, the better one stays the better one. -/
theorem isBetter_score (a b : W) : A'.isBetter (T.score a) (T.score b) = A.isBetter a b :=
  T.lt b a

/-- Folding recoded scores gives the recoded fold. -/
theorem foldl_score {f : W → W → W} {f' : W' → W' → W'}
    (h : ∀ a b, f' (T.score a) (T.score b) = T.score (f a b)) (a : W) (ws : List W) :
    (ws.map T.score).foldl f' (T.score a) = T.score (ws.foldl f a) := by
  rw [List.foldl_map]
  exact List.foldl_hom T.score h

/-- The sum of recoded scores is the recoded sum. -/
theorem sum_score (ws : List W) : A'.sum (ws.map T.score) = T.score (A.sum ws) := by
  rw [ScoreAlgebra.sum, T.zero]
  exact T.foldl_score T.add _ ws

/-- The product of recoded scores is the recoded product. -/
theorem times_score (ws : List W) : A'.times (ws.map T.score) = T.score (A.times ws) := by
  rw [ScoreAlgebra.times, T.one]
  exact T.foldl_score T.mul _ ws

/-! ## Symbols -/

/-- **A translation keeps the identity of symbols.** -/
theorem symbol_beq (a b : Category) : (T.symbol a == T.symbol b) = (a == b) := by
  rw [BEq.congr_left (T.same a), BEq.congr_right (T.same b)]

/-- All spellings of a symbol have one canonical spelling. -/
theorem canonical_symbol (c : Category) : (T.symbol c).canonical = c.canonical :=
  (Category.beq_iff_canonical_eq _ _).mp (T.same c)

/-- A terminal takes the same tokens in every spelling. -/
theorem accepts_symbol (c : Category) (token : Payload) :
    (T.symbol c).accepts token = c.accepts token :=
  Category.accepts_congr (T.same c) token

/-- A symbol is on a list in every spelling or in none. -/
theorem contains_symbol (l : List Category) (c : Category) :
    l.contains (T.symbol c) = l.contains c := by
  rw [Bool.eq_iff_iff, List.contains_iff_exists_mem_beq, List.contains_iff_exists_mem_beq]
  simp only [BEq.congr_left (T.same c)]

/-- A list that is respelled holds the respelled symbols and no others. -/
theorem contains_map_symbol (l : List Category) (c : Category) :
    (l.map T.symbol).contains (T.symbol c) = l.contains c := by
  rw [Bool.eq_iff_iff, List.contains_iff_exists_mem_beq, List.contains_iff_exists_mem_beq]
  constructor
  · rintro ⟨_, hmem, hbeq⟩
    obtain ⟨a, ha, rfl⟩ := List.mem_map.mp hmem
    exact ⟨a, ha, T.symbol_beq c a ▸ hbeq⟩
  · rintro ⟨a, ha, hbeq⟩
    exact ⟨T.symbol a, List.mem_map_of_mem ha, (T.symbol_beq c a).trans hbeq⟩

/-- A symbol that is no terminal object has only one spelling. -/
theorem symbol_of_plain {c : Category} (h : c.isTerminalObject = false) : T.symbol c = c :=
  (Category.eq_of_beq h (BEq.symm (T.same c))).symm

/-- A terminal is spelled as a terminal, and nothing else is. -/
theorem isTerminalObject_symbol (c : Category) :
    (T.symbol c).isTerminalObject = c.isTerminalObject := by
  cases h : (T.symbol c).isTerminalObject with
  | true =>
    by_contra hplain
    rw [T.symbol_of_plain (Bool.eq_false_iff.mpr (Ne.symm hplain))] at h
    exact hplain h.symm
  | false => rw [← Category.eq_of_beq h (T.same c), h]

/-- Nothing but the start symbol is spelled like it. -/
theorem symbol_eq_start_iff (c : Category) : T.symbol c = .start ↔ c = .start := by
  constructor
  · intro h
    have hplain : c.isTerminalObject = false := by
      rw [← T.isTerminalObject_symbol, h]
      rfl
    rw [← T.symbol_of_plain hplain, h]
  · rintro rfl
    exact T.symbol_of_plain rfl

/-- A table is looked up by any spelling of its keys. -/
theorem get?_symbol {ν : Type} (t : Table Category ν) (c : Category) :
    Table.get? t (T.symbol c) = Table.get? t c :=
  Table.get?_congr t (T.same c)

/-! ## Identity -/

/-- Two heads of rules are the same in translation if and only if they were before. -/
theorem head_beq (h h' : RuleHead) : (T.head h == T.head h') = (h == h') := by
  have hcanonical : ∀ h : RuleHead, (T.head h).canonical = h.canonical := by
    intro h
    simp [RuleHead.canonical, head, T.canonical_symbol, Function.comp_def]
  rw [Bool.eq_iff_iff, RuleHead.beq_iff_canonical_eq, RuleHead.beq_iff_canonical_eq, hcanonical,
    hcanonical]

variable [DecidableEq P] [DecidableEq W] [DecidableEq W']

/-- Scores are recoded one to one, so that the bodies of rules are not confused either. -/
theorem body_beq (b b' : RuleBody P W) : (T.body b == T.body b') = (b == b') := by
  show (decide (b.omitted = b'.omitted) && decide (b.probability = b'.probability)
      && decide (T.score b.weight = T.score b'.weight) && decide (b.mark = b'.mark)
      && T.head b.head == T.head b'.head)
    = (decide (b.omitted = b'.omitted) && decide (b.probability = b'.probability)
      && decide (b.weight = b'.weight) && decide (b.mark = b'.mark) && b.head == b'.head)
  rw [T.head_beq, decide_eq_decide.mpr T.injective.eq_iff]

/-- **A translation keeps the identity of rules**, down to the rules they were derived from. -/
theorem rule_beq (r r' : Rule P W) : (T.rule r == T.rule r') = (r == r') := by
  show (T.rule r).beq (T.rule r') = r.beq r'
  induction r generalizing r' with
  | given b =>
    cases r' with
    | given b' => exact T.body_beq b b'
    | derived b' s' => rfl
  | derived b s ih =>
    cases r' with
    | given b' => rfl
    | derived b' s' =>
      show (T.body b == T.body b' && (T.rule s).beq (T.rule s')) = (b == b' && s.beq s')
      rw [T.body_beq, ih]

/-- **A translation keeps the identity of states.** -/
theorem state_beq (s t : State P W) : (T.state s == T.state t) = (s == t) := by
  show (decide (s.origin = t.origin) && decide (s.dot = t.dot) && decide (s.position = t.position)
      && T.rule s.rule == T.rule t.rule)
    = (decide (s.origin = t.origin) && decide (s.dot = t.dot) && decide (s.position = t.position)
      && s.rule == t.rule)
  rw [T.rule_beq]

end Definitions

/-! ## Cells and columns -/

section Columns

variable [Probability P] {A : ScoreAlgebra P W} {A' : ScoreAlgebra P W'} (T : Translation A A')

/-- A state that is entered in translation has the scores zero. -/
theorem fresh_cell (s : State P W) : Cell.fresh A' (T.state s) = T.cell (.fresh A s) := by
  rw [Cell.fresh, T.zero]
  rfl

/-- What is added to a forward score may be recoded before or after. -/
theorem addForward_cell (w : W) (c : Cell P W) :
    (T.cell c).addForward A' (T.score w) = T.cell (c.addForward A w) := by
  rw [Cell.addForward, cell, T.add]
  rfl

/-- What is added to an inner score may be recoded before or after. -/
theorem addInner_cell (w : W) (c : Cell P W) :
    (T.cell c).addInner A' (T.score w) = T.cell (c.addInner A w) := by
  rw [Cell.addInner, cell, T.add]
  rfl

/-- A derivation is an improvement in translation if and only if it was one before. -/
theorem isImprovedBy_cell (b : Backpointer P W) (c : Cell P W) :
    (T.cell c).isImprovedBy A' (T.pointer b) = c.isImprovedBy A b := by
  rw [Cell.isImprovedBy, Cell.isImprovedBy, cell, Option.all_map]
  exact congrArg (fun f => Option.all f c.best)
    (funext fun old => T.isBetter_score b.score old.score)

/-- A state that is offered a derivation takes it in translation if and only if it took it
before. -/
theorem offer_cell (b : Backpointer P W) (c : Cell P W) :
    (T.cell c).offer A' (T.pointer b) = T.cell (c.offer A b) := by
  rw [Cell.offer, Cell.offer, T.isImprovedBy_cell]
  split <;> rfl

theorem states_column (col : Column P W) : (T.column col).states = col.states.map T.state := by
  simp [Column.states, column, cell, Function.comp_def]

/-- The same states wait for a symbol, however the symbol is spelled. -/
theorem waiting_column (col : Column P W) (c : Category) :
    (T.column col).waiting c = T.column (col.waiting c) := by
  rw [Column.waiting, column, List.filter_map, column, Column.waiting]
  congr 2
  funext d
  show (T.state d.state).next?.any (· == c) = _
  rw [next?_state, Option.any_map]
  exact congrArg (fun f => Option.any f d.state.next?) (funext fun z => BEq.congr_left (T.same z))

/-- Columns in translation hold as many states. -/
theorem countStates_column (cols : List (Column P W)) :
    countStates (cols.map T.column) = countStates cols := by
  induction cols with
  | nil => rfl
  | cons col cols ih => rw [List.map_cons, countStates, countStates, ih, column, List.length_map]

/-- An earlier column is looked up in translation. -/
theorem pastColumn_column (past : List (Column P W)) (k : Nat) :
    Parser.pastColumn (past.map T.column) k = T.column (Parser.pastColumn past k) := by
  rw [Parser.pastColumn, Parser.pastColumn, List.getElem?_map]
  cases past[k]? <;> rfl

variable [DecidableEq P] [DecidableEq W] [DecidableEq W']

/-- **A state is found in translation where it was found before.** -/
theorem find?_column (col : Column P W) (s : State P W) :
    (T.column col).find? (T.state s) = (col.find? s).map T.cell := by
  induction col with
  | nil => rfl
  | cons c col ih =>
    rw [column, List.map_cons, Column.find?_cons, Column.find?_cons, ← column, ih,
      show (T.cell c).state = T.state c.state from rfl, T.state_beq]
    split <;> rfl

/-- A column in translation holds the translated states and no others. -/
theorem contains_column (col : Column P W) (s : State P W) :
    (T.column col).contains (T.state s) = col.contains s := by
  rw [Column.contains, Column.contains, T.find?_column, Option.isSome_map]

/-- The forward score of a state is recoded, also the one of a state that is not there. -/
theorem forward_column (col : Column P W) (s : State P W) :
    (T.column col).forward A' (T.state s) = T.score (col.forward A s) := by
  rw [Column.forward, Column.forward, T.find?_column, T.zero]
  cases col.find? s <;> rfl

/-- The inner score of a state is recoded in the same way. -/
theorem inner_column (col : Column P W) (s : State P W) :
    (T.column col).inner A' (T.state s) = T.score (col.inner A s) := by
  rw [Column.inner, Column.inner, T.find?_column, T.zero]
  cases col.find? s <;> rfl

/-- The best derivation of a state is the translated one. -/
theorem best?_column (col : Column P W) (s : State P W) :
    (T.column col).best? (T.state s) = (col.best? s).map T.pointer := by
  rw [Column.best?, Column.best?, T.find?_column]
  cases col.find? s <;> rfl

/-- **A column is changed in translation as it was before.** -/
theorem alter_column {f : Cell P W → Cell P W} {f' : Cell P W' → Cell P W'}
    (hf : ∀ c, f' (T.cell c) = T.cell (f c)) (s : State P W) (col : Column P W) :
    Column.alter A' (T.state s) f' (T.column col) = T.column (Column.alter A s f col) := by
  induction col with
  | nil =>
    show [f' (.fresh A' (T.state s))] = [T.cell (f (.fresh A s))]
    rw [T.fresh_cell, hf]
  | cons c col ih =>
    rw [column, List.map_cons, Column.alter, Column.alter, ← column, ih,
      show (T.cell c).state = T.state c.state from rfl, T.state_beq]
    split
    · rw [hf]
      rfl
    · rfl

end Columns

end Translation
end StochasticGrammar
