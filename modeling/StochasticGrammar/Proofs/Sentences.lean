import StochasticGrammar.Proofs.Chains
import StochasticGrammar.Parser.Basic

/-!
# What a grammar derives

Derivation in the textbook sense: a string of symbols is rewritten one symbol at a time, in any
order, by the rules that the parser uses and the rule that expands the start symbol into the
category to be parsed. Tokens are spelt by the terminals that take them.

A chart follows derivations from left to right, so two other forms are proved to be the same:

> `yields_iff`: a string derives the spelling of some tokens if and only if it can be read off them
> from left to right, one symbol after the other.

> `reaches_iff`: a string in which a symbol stands behind the spelling of some tokens can be derived
> if and only if rules lead down to that symbol over phrases that those tokens make up.
-/

namespace StochasticGrammar.Grammar

open Relation (ReflTransGen)

variable {P W : Type}

/-! ## Rewriting -/

/-- A category is rewritten by one of the rules that the parser uses, and the start symbol by the
category to be parsed. -/
inductive Rewrites (G : Grammar P W) (goal : Category) : Category → List Category → Prop
  | start : Rewrites G goal .start [goal]
  | rule {x : Category} {q : Production P W} (hq : q ∈ G.productionsOf x) :
      Rewrites G goal x q.rule.rhs

/-- One symbol of a string is rewritten. -/
inductive Produces (G : Grammar P W) (goal : Category) : List Category → List Category → Prop
  | rewrite {x : Category} {rhs : List Category} (h : Rewrites G goal x rhs)
      (left right : List Category) :
      Produces G goal (left ++ x :: right) (left ++ (rhs ++ right))

/-- Symbols of a string are rewritten one after the other. -/
def Derives (G : Grammar P W) (goal : Category) : List Category → List Category → Prop :=
  ReflTransGen (Produces G goal)

/-- A string of terminals that take the tokens one by one. -/
def Spells (G : Grammar P W) : List Category → List Payload → Prop :=
  List.Forall₂ fun c token => G.isTerminal c = true ∧ c.accepts token = .ok true

/-- A string derives some tokens. -/
def DerivesTokens (G : Grammar P W) (goal : Category) (symbols : List Category)
    (tokens : List Payload) : Prop :=
  ∃ word, G.Derives goal symbols word ∧ G.Spells word tokens

/-- The start symbol derives the tokens, followed by the category and anything else. -/
def DerivesNext (G : Grammar P W) (goal : Category) (tokens : List Payload) (x : Category) : Prop :=
  ∃ word rest, G.Derives goal [.start] (word ++ x :: rest) ∧ G.Spells word tokens

variable {G : Grammar P W} {goal : Category}

theorem Produces.context {a b : List Category} (h : Produces G goal a b)
    (left right : List Category) :
    Produces G goal (left ++ (a ++ right)) (left ++ (b ++ right)) := by
  cases h with
  | rewrite h l r =>
    have hstep := Produces.rewrite h (left ++ l) (r ++ right)
    simpa using hstep

/-- A part of a string derives what it derives alone. -/
theorem Derives.context {a b : List Category} (h : G.Derives goal a b)
    (left right : List Category) :
    G.Derives goal (left ++ (a ++ right)) (left ++ (b ++ right)) := by
  induction h with
  | refl => exact .refl
  | tail _ hstep ih => exact ih.tail (hstep.context left right)

theorem Spells.append {a b : List Category} {ts us : List Payload} (ha : G.Spells a ts)
    (hb : G.Spells b us) : G.Spells (a ++ b) (ts ++ us) :=
  List.rel_append ha hb

/-! ## From left to right -/

/-- A string is read off tokens from left to right. -/
inductive Yields (G : Grammar P W) (goal : Category) : List Category → List Payload → Prop
  | nil : Yields G goal [] []
  | terminal {c : Category} {token : Payload} {rest : List Category} {tokens : List Payload}
      (hterm : G.isTerminal c = true) (htoken : c.accepts token = .ok true)
      (hrest : Yields G goal rest tokens) : Yields G goal (c :: rest) (token :: tokens)
  | expand {x : Category} {rhs rest : List Category} {found tokens : List Payload}
      (h : Rewrites G goal x rhs) (hrhs : Yields G goal rhs found)
      (hrest : Yields G goal rest tokens) : Yields G goal (x :: rest) (found ++ tokens)

namespace Yields

theorem append {a b : List Category} {ts us : List Payload} (ha : Yields G goal a ts)
    (hb : Yields G goal b us) : Yields G goal (a ++ b) (ts ++ us) := by
  induction ha with
  | nil => exact hb
  | terminal hterm htoken _ ih => exact .terminal hterm htoken ih
  | expand h hrhs _ _ ih =>
    rw [List.append_assoc]
    exact .expand h hrhs ih

/-- The tokens of a string divide as the string does. -/
theorem split {a b : List Category} {ts : List Payload} (h : Yields G goal (a ++ b) ts) :
    ∃ us vs, ts = us ++ vs ∧ Yields G goal a us ∧ Yields G goal b vs := by
  induction a generalizing ts with
  | nil => exact ⟨[], ts, rfl, .nil, h⟩
  | cons c a ih =>
    cases h with
    | terminal hterm htoken hrest =>
      obtain ⟨us, vs, rfl, ha, hb⟩ := ih hrest
      exact ⟨_ :: us, vs, rfl, .terminal hterm htoken ha, hb⟩
    | expand h hrhs hrest =>
      obtain ⟨us, vs, rfl, ha, hb⟩ := ih hrest
      exact ⟨_, vs, (List.append_assoc _ _ _).symm, .expand h hrhs ha, hb⟩

theorem single {x : Category} {rhs : List Category} {ts : List Payload} (h : Rewrites G goal x rhs)
    (hrhs : Yields G goal rhs ts) : Yields G goal [x] ts := by
  have hx := Yields.expand h hrhs .nil
  rwa [List.append_nil] at hx

/-- Before a symbol is rewritten, the string yields what it yields afterwards. -/
theorem of_produces {a b : List Category} {ts : List Payload} (hab : Produces G goal a b)
    (h : Yields G goal b ts) : Yields G goal a ts := by
  cases hab with
  | rewrite hx left right =>
    obtain ⟨us, vs, rfl, hleft, h⟩ := h.split
    obtain ⟨vs, ws, rfl, hrhs, hright⟩ := h.split
    exact hleft.append (.expand hx hrhs hright)

theorem of_spells {a : List Category} {ts : List Payload} (h : G.Spells a ts) :
    Yields G goal a ts := by
  induction h with
  | nil => exact .nil
  | cons hc _ ih => exact .terminal hc.1 hc.2 ih

end Yields

/-- **Deriving tokens is reading them from left to right.** -/
theorem yields_iff {symbols : List Category} {tokens : List Payload} :
    Yields G goal symbols tokens ↔ G.DerivesTokens goal symbols tokens := by
  constructor
  · intro h
    induction h with
    | nil => exact ⟨[], .refl, .nil⟩
    | @terminal c token rest tokens hterm htoken _ ih =>
      obtain ⟨word, hword, hspells⟩ := ih
      refine ⟨c :: word, ?_, .cons ⟨hterm, htoken⟩ hspells⟩
      simpa using hword.context [c] []
    | @expand x rhs rest found tokens h _ _ ih₁ ih₂ =>
      obtain ⟨word₁, hword₁, hspells₁⟩ := ih₁
      obtain ⟨word₂, hword₂, hspells₂⟩ := ih₂
      refine ⟨word₁ ++ word₂, ?_, hspells₁.append hspells₂⟩
      have hfirst : G.Derives goal (x :: rest) (rhs ++ rest) := .single (.rewrite h [] rest)
      have hsecond : G.Derives goal (rhs ++ rest) (word₁ ++ rest) := by
        simpa using hword₁.context [] rest
      have hthird : G.Derives goal (word₁ ++ rest) (word₁ ++ word₂) := by
        simpa using hword₂.context word₁ []
      exact (hfirst.trans hsecond).trans hthird
  · rintro ⟨word, hword, hspells⟩
    induction hword using ReflTransGen.head_induction_on with
    | refl => exact .of_spells hspells
    | head hstep _ ih => exact ih.of_produces hstep

/-! ## Down to a symbol -/

/-- Rules lead down from one category to another that stands behind phrases that the tokens make
up. -/
inductive Reaches (G : Grammar P W) (goal : Category) : Category → List Payload → Category → Prop
  | refl (x : Category) : Reaches G goal x [] x
  | step {x y z : Category} {left right : List Category} {found tokens : List Payload}
      (h : Rewrites G goal x (left ++ y :: right)) (hleft : Yields G goal left found)
      (hy : Reaches G goal y tokens z) : Reaches G goal x (found ++ tokens) z

namespace Reaches

theorem trans {x y z : Category} {ts us : List Payload} (hxy : Reaches G goal x ts y)
    (hyz : Reaches G goal y us z) : Reaches G goal x (ts ++ us) z := by
  induction hxy with
  | refl => exact hyz
  | step h hleft _ ih =>
    rw [List.append_assoc]
    exact .step h hleft (ih hyz)

/-- One rule further down. -/
theorem down {x y z : Category} {left right : List Category} {ts us : List Payload}
    (hxy : Reaches G goal x ts y) (h : Rewrites G goal y (left ++ z :: right))
    (hleft : Yields G goal left us) : Reaches G goal x (ts ++ us) z := by
  have hstep := Reaches.step h hleft (.refl z)
  rw [List.append_nil] at hstep
  exact hxy.trans hstep

/-- The last rule on the way down. -/
theorem cases_last {x z : Category} {ts : List Payload} (h : Reaches G goal x ts z) :
    (x = z ∧ ts = []) ∨ ∃ y left right us vs, Reaches G goal x us y ∧
      Rewrites G goal y (left ++ z :: right) ∧ Yields G goal left vs ∧ ts = us ++ vs := by
  induction h with
  | refl x => exact Or.inl ⟨rfl, rfl⟩
  | @step x y z left right found ts hrw hleft hy ih =>
    right
    rcases ih with ⟨rfl, rfl⟩ | ⟨y', left', right', us, vs, hy', hrw', hleft', rfl⟩
    · exact ⟨x, left, right, [], found, .refl x, hrw, hleft, List.append_nil _⟩
    · exact ⟨y', left', right', found ++ us, vs, .step hrw hleft hy', hrw', hleft',
        (List.append_assoc _ _ _).symm⟩

end Reaches

/-- A member of two lists in a row stands in the first one or in the second one. -/
theorem append_cons_eq_append {a b u v : List Category} {x : Category} (h : a ++ b = u ++ x :: v) :
    (∃ w, a = u ++ x :: w ∧ v = w ++ b) ∨ ∃ w, u = a ++ w ∧ b = w ++ x :: v := by
  rcases List.append_eq_append_iff.mp h with ⟨w, hu, hb⟩ | ⟨w, ha, hv⟩
  · exact Or.inr ⟨w, hu, hb⟩
  · cases w with
    | nil => exact Or.inr ⟨[], by simpa using ha.symm, hv.symm⟩
    | cons y w =>
      injection hv with hx hv
      subst hx
      exact Or.inl ⟨w, ha, hv⟩

/-- Where in a string, derived from another one, a symbol behind some tokens comes from: a symbol of
the other string, behind the tokens of what stands before it. -/
theorem Derives.exists_reaches {symbols word rest : List Category} {tokens : List Payload}
    {z : Category} (h : G.Derives goal symbols (word ++ z :: rest)) (hword : G.Spells word tokens) :
    ∃ left x right us vs, symbols = left ++ x :: right ∧ tokens = us ++ vs ∧
      Yields G goal left us ∧ Reaches G goal x vs z := by
  induction h using ReflTransGen.head_induction_on with
  | refl =>
    exact ⟨word, z, rest, tokens, [], rfl, (List.append_nil _).symm, .of_spells hword, .refl z⟩
  | head hstep _ ih =>
    obtain ⟨left, x, right, us, vs, heq, rfl, hleft, hx⟩ := ih
    cases hstep with
    | @rewrite y rhs h l r =>
      rcases append_cons_eq_append heq with ⟨w, rfl, _⟩ | ⟨w, rfl, hw⟩
      · -- the symbol stands before what was rewritten
        exact ⟨left, x, w ++ y :: r, us, vs, by simp, rfl, hleft, hx⟩
      · rcases append_cons_eq_append hw with ⟨w', rfl, _⟩ | ⟨w', rfl, rfl⟩
        · -- the symbol stands in what was rewritten
          obtain ⟨us₁, us₂, rfl, hl, hw⟩ := hleft.split
          exact ⟨l, y, r, us₁, us₂ ++ vs, rfl, by simp, hl, .step h hw hx⟩
        · -- the symbol stands behind what was rewritten
          obtain ⟨us₁, us₂, rfl, hl, hw⟩ := hleft.split
          obtain ⟨us₂, us₃, rfl, hrhs, hw'⟩ := hw.split
          exact ⟨l ++ y :: w', x, right, us₁ ++ (us₂ ++ us₃), vs, by simp, rfl,
            hl.append (.expand h hrhs hw'), hx⟩

theorem Reaches.derives {x z : Category} {tokens : List Payload} (h : Reaches G goal x tokens z) :
    ∃ word rest, G.Derives goal [x] (word ++ z :: rest) ∧ G.Spells word tokens := by
  induction h with
  | refl x => exact ⟨[], [], .refl, .nil⟩
  | @step x y z left right found tokens h hleft _ ih =>
    obtain ⟨word, rest, hword, hspells⟩ := ih
    obtain ⟨word', hword', hspells'⟩ := yields_iff.mp hleft
    refine ⟨word' ++ word, rest ++ right, ?_, hspells'.append hspells⟩
    have hfirst : G.Derives goal [x] (left ++ y :: right) := by
      have hstep := Produces.rewrite h [] []
      rw [List.append_nil] at hstep
      exact .single hstep
    have hsecond : G.Derives goal (left ++ y :: right) (word' ++ y :: right) := by
      simpa using hword'.context [] (y :: right)
    have hthird : G.Derives goal (word' ++ y :: right) (word' ++ (word ++ z :: rest ++ right)) := by
      simpa using hword.context word' right
    have hassoc : word' ++ word ++ z :: (rest ++ right)
        = word' ++ (word ++ z :: rest ++ right) := by
      simp
    rw [hassoc]
    exact (hfirst.trans hsecond).trans hthird

/-- **Deriving a symbol behind some tokens is leading down to it.** -/
theorem reaches_iff {tokens : List Payload} {x : Category} :
    Reaches G goal .start tokens x ↔ G.DerivesNext goal tokens x := by
  constructor
  · exact Reaches.derives
  · rintro ⟨word, rest, hword, hspells⟩
    obtain ⟨left, y, right, us, vs, heq, rfl, hleft, hy⟩ := hword.exists_reaches hspells
    obtain ⟨rfl, heq⟩ | ⟨_, heq⟩ := List.append_eq_singleton_iff.mp heq.symm
    · cases heq
      cases hleft
      exact hy
    · cases heq

end StochasticGrammar.Grammar
