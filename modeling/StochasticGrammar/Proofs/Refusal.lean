import StochasticGrammar.Proofs.Exact
import StochasticGrammar.Proofs.Steps

/-!
# Refused tokens

A parser may be offered tokens that no state can take. Such a token is refused, and the parser goes
on as if it had not been offered: its chart is the chart of the tokens it took, and the columns of a
shorter list of tokens are never changed by a longer one.

> `feed_taken`: offering the tokens that were taken, and only those, leads to an agreeing parser.

> `column_feed_of_le`: nothing that is offered later changes the columns so far.
-/

namespace StochasticGrammar.Parser

variable {P W : Type} [DecidableEq P] [DecidableEq W]

/-- Offers tokens one by one, whether or not they are taken. The answer is the parser afterwards and
the tokens that it took. -/
def feed (p : Parser P W) : List Payload → Except Pattern.Error (Parser P W × List Payload)
  | [] => .ok (p, [])
  | token :: rest =>
    match p.step token with
    | (_, .error e) => .error e
    | (p, .ok false) => feed p rest
    | (p, .ok true) =>
      match feed p rest with
      | .error e => .error e
      | .ok (q, taken) => .ok (q, token :: taken)

variable {p q : Parser P W} {token : Payload} {tokens taken : List Payload}

/-- The first offer of several: it was refused, or it was taken. -/
theorem feed_cons (h : p.feed (token :: tokens) = .ok (q, taken)) :
    (∃ p', p.step token = (p', .ok false) ∧ p'.feed tokens = .ok (q, taken)) ∨
    ∃ p' more, p.step token = (p', .ok true) ∧ p'.feed tokens = .ok (q, more) ∧
      taken = token :: more := by
  unfold feed at h
  cases hstep : p.step token with
  | mk p' answer =>
    rw [hstep] at h
    rcases answer with e | (_ | _)
    · cases h
    · exact Or.inl ⟨p', rfl, h⟩
    · cases hfeed : p'.feed tokens with
      | error e =>
        simp only [hfeed] at h
        cases h
      | ok r =>
        obtain ⟨q', more⟩ := r
        simp only [hfeed] at h
        cases h
        exact Or.inr ⟨p', more, rfl, hfeed, rfl⟩

theorem feed_cons_of_refused {p' : Parser P W} (hstep : p.step token = (p', .ok false)) :
    p.feed (token :: tokens) = p'.feed tokens := by
  rw [feed, hstep]

theorem feed_cons_of_taken {p' : Parser P W} (hstep : p.step token = (p', .ok true))
    (h : p'.feed tokens = .ok (q, taken)) :
    p.feed (token :: tokens) = .ok (q, token :: taken) := by
  rw [feed, hstep]
  simp only [h]

/-- The taken tokens are some of those offered, in order. -/
theorem sublist_of_feed (h : p.feed tokens = .ok (q, taken)) : taken.Sublist tokens := by
  induction tokens generalizing p taken with
  | nil =>
    cases h
    exact .slnil
  | cons token tokens ih =>
    rcases feed_cons h with ⟨p', _, hfeed⟩ | ⟨p', more, _, hfeed, rfl⟩
    · exact (ih hfeed).cons token
    · exact (ih hfeed).cons_cons token

theorem position_of_feed (h : p.feed tokens = .ok (q, taken)) :
    q.position = p.position + taken.length := by
  induction tokens generalizing p taken with
  | nil =>
    cases h
    rfl
  | cons token tokens ih =>
    rcases feed_cons h with ⟨p', hstep, hfeed⟩ | ⟨p', more, hstep, hfeed, rfl⟩
    · rw [ih hfeed, (agree_of_refused hstep).position]
    · rw [ih hfeed, position_of_taken hstep, List.length_cons]
      omega

theorem clear_of_feed (hclear : Clear p) (h : p.feed tokens = .ok (q, taken)) : Clear q := by
  induction tokens generalizing p taken with
  | nil =>
    cases h
    exact hclear
  | cons token tokens ih =>
    rcases feed_cons h with ⟨p', hstep, hfeed⟩ | ⟨p', more, hstep, hfeed, rfl⟩
    · exact ih (hclear.of_agree (agree_of_refused hstep)) hfeed
    · exact ih (hclear.of_taken hstep) hfeed

/-- However many tokens follow, the columns up to the parser's position stay as they are. -/
theorem column_feed_of_le (h : p.feed tokens = .ok (q, taken)) {j : Nat} (hj : j ≤ p.position) :
    q.chart.column j = p.chart.column j := by
  induction tokens generalizing p taken with
  | nil =>
    cases h
    rfl
  | cons token tokens ih =>
    have hfrozen := column_step_of_le p token hj
    rcases feed_cons h with ⟨p', hstep, hfeed⟩ | ⟨p', more, hstep, hfeed, rfl⟩
    · rw [hstep] at hfrozen
      rw [ih hfeed (by rw [(agree_of_refused hstep).position]; exact hj), hfrozen]
    · rw [hstep] at hfrozen
      rw [ih hfeed (by rw [position_of_taken hstep]; omega), hfrozen]

/-- Agreeing parsers take the same tokens and agree afterwards. -/
theorem Agree.feed {p p' : Parser P W} (hagree : Agree p p') (h : p.feed tokens = .ok (q, taken)) :
    ∃ q', p'.feed tokens = .ok (q', taken) ∧ Agree q q' := by
  induction tokens generalizing p p' taken with
  | nil =>
    cases h
    exact ⟨p', rfl, hagree⟩
  | cons token tokens ih =>
    obtain ⟨hanswer, hafter⟩ := hagree.step token
    have hstep' : p'.step token = ((p'.step token).1, (p.step token).2) := by rw [hanswer]
    rcases feed_cons h with ⟨r, hstep, hfeed⟩ | ⟨r, more, hstep, hfeed, rfl⟩
    · rw [hstep] at hafter hstep'
      obtain ⟨q', hq', hagree'⟩ := ih hafter hfeed
      exact ⟨q', (feed_cons_of_refused hstep').trans hq', hagree'⟩
    · rw [hstep] at hafter hstep'
      obtain ⟨q', hq', hagree'⟩ := ih hafter hfeed
      exact ⟨q', feed_cons_of_taken hstep' hq', hagree'⟩

/-- **The tokens that were taken lead to an agreeing parser**, with none of them refused. -/
theorem feed_taken (h : p.feed tokens = .ok (q, taken)) :
    ∃ q', p.feed taken = .ok (q', taken) ∧ Agree q q' := by
  induction tokens generalizing p taken q with
  | nil =>
    cases h
    exact ⟨p, rfl, .refl p⟩
  | cons token tokens ih =>
    rcases feed_cons h with ⟨p', hstep, hfeed⟩ | ⟨p', more, hstep, hfeed, rfl⟩
    · -- the refused token is dropped before the rest is
      obtain ⟨r, hr, hagree⟩ := (agree_of_refused hstep).feed hfeed
      obtain ⟨q', hq', hagree'⟩ := ih hr
      exact ⟨q', hq', hagree.trans hagree'⟩
    · obtain ⟨q', hq', hagree⟩ := ih hfeed
      exact ⟨q', feed_cons_of_taken hstep hq', hagree⟩

/-! ## Tokens that are all taken -/

theorem step_of_feed_all {rest : List Payload}
    (h : p.feed (token :: rest) = .ok (q, token :: rest)) :
    ∃ p', p.step token = (p', .ok true) ∧ p'.feed rest = .ok (q, rest) := by
  rcases feed_cons h with ⟨p', _, hfeed⟩ | ⟨p', more, hstep, hfeed, htaken⟩
  · have hlen := (sublist_of_feed hfeed).length_le
    rw [List.length_cons] at hlen
    omega
  · cases htaken
    exact ⟨p', hstep, hfeed⟩

/-- A run over tokens that are all taken goes on with the rest. -/
theorem run_append {rest : List Payload} (h : p.feed taken = .ok (q, taken)) :
    p.run (taken ++ rest) = q.run rest := by
  induction taken generalizing p with
  | nil =>
    cases h
    rfl
  | cons token taken ih =>
    obtain ⟨p', hstep, hfeed⟩ := step_of_feed_all h
    rw [List.cons_append, run, hstep]
    exact ih hfeed

/-- Tokens that are all taken can be taken in two parts. -/
theorem feed_append {rest : List Payload} (h : p.feed (taken ++ rest) = .ok (q, taken ++ rest)) :
    ∃ p', p.feed taken = .ok (p', taken) ∧ p'.feed rest = .ok (q, rest) := by
  induction taken generalizing p with
  | nil => exact ⟨p, rfl, h⟩
  | cons token taken ih =>
    obtain ⟨r, hstep, hfeed⟩ := step_of_feed_all h
    obtain ⟨p', hp', hrest⟩ := ih hfeed
    exact ⟨p', feed_cons_of_taken hstep hp', hrest⟩

/-! ## Charts -/

variable [Probability P] {G : Grammar P W} {goal : Category}

theorem clear_create (h : create G goal = .ok p) : Clear p := by
  obtain ⟨_, column, _, rfl⟩ := create_eq_ok h
  exact fun k hk => pastColumn_of_ge hk

theorem position_create (h : create G goal = .ok p) : p.position = 0 := by
  obtain ⟨_, column, _, rfl⟩ := create_eq_ok h
  rfl

theorem Fed.feed {before : List Payload} (hfed : Fed G goal before p)
    (h : p.feed taken = .ok (q, taken)) : Fed G goal (before ++ taken) q := by
  induction taken generalizing p before with
  | nil =>
    cases h
    rwa [List.append_nil]
  | cons token taken ih =>
    obtain ⟨p', hstep, hfeed⟩ := step_of_feed_all h
    have hfed' := ih (.step hfed hstep) hfeed
    rwa [List.append_assoc] at hfed'

omit [Probability P] in
/-- A token more is taken behind those that were taken. -/
theorem feed_concat {q' : Parser P W} (h : p.feed taken = .ok (q, taken))
    (hstep : q.step token = (q', .ok true)) :
    p.feed (taken ++ [token]) = .ok (q', taken ++ [token]) := by
  induction taken generalizing p with
  | nil =>
    cases h
    exact feed_cons_of_taken hstep rfl
  | cons t taken ih =>
    obtain ⟨p', hfirst, hrest⟩ := step_of_feed_all h
    exact feed_cons_of_taken hfirst (ih hrest)

/-- A parser that was fed some tokens was created and then offered them. -/
theorem Fed.exists_feed (hfed : Fed G goal tokens q) :
    ∃ p, Parser.create G goal = .ok p ∧ p.feed tokens = .ok (q, tokens) := by
  induction hfed with
  | create h => exact ⟨_, h, rfl⟩
  | step _ hstep ih =>
    obtain ⟨p, hcreate, hfeed⟩ := ih
    exact ⟨p, hcreate, feed_concat hfeed hstep⟩

/-- What is offered to a new parser leads to one that agrees with a parser fed the taken tokens. -/
theorem exists_fed_of_feed (hcreate : create G goal = .ok p) (h : p.feed tokens = .ok (q, taken)) :
    ∃ q', Fed G goal taken q' ∧ Agree q q' := by
  obtain ⟨q', hq', hagree⟩ := feed_taken h
  exact ⟨q', Fed.feed (.create hcreate) hq', hagree⟩

/-- The chart of tokens that are all taken is the parser's own. -/
theorem parse_of_feed (hcreate : create G goal = .ok p) (h : p.feed taken = .ok (q, taken)) :
    parse G goal taken = .ok (q.chart.ensure taken.length) := by
  have hrun : p.run taken = .ok q := by
    have hall : p.run (taken ++ []) = q.run [] := run_append h
    rwa [List.append_nil] at hall
  exact parse_eq_ok_iff.mpr ⟨p, q, hcreate, hrun, rfl⟩

theorem length_of_parse {chart : Chart P W} (h : parse G goal tokens = .ok chart) :
    chart.length = tokens.length + 1 := by
  obtain ⟨taken, rest, past, rfl, hrun, hcolumns, _⟩ := parse_eq_ok h
  rw [Chart.length, hcolumns, List.length_append, List.length_replicate, hrun.length,
    List.length_append]
  omega

/-- A chart is empty behind the first token that is refused. -/
theorem column_of_parse_refused {before after : List Payload} {chart : Chart P W} {p' : Parser P W}
    (hcreate : create G goal = .ok p) (hbefore : p.feed before = .ok (q, before))
    (hrefused : q.step token = (p', .ok false))
    (h : parse G goal (before ++ token :: after) = .ok chart) {k : Nat} (hk : before.length < k) :
    chart.column k = [] := by
  obtain ⟨r, r', hr, hrun, rfl⟩ := parse_eq_ok_iff.mp h
  rw [hcreate] at hr
  cases hr
  rw [run_append hbefore, run, hrefused] at hrun
  cases hrun
  have hposition : q.position = before.length := by
    rw [position_of_feed hbefore, position_create hcreate, Nat.zero_add]
  have hclear : Clear q := clear_of_feed (clear_create hcreate) hbefore
  rw [Chart.column_ensure, (agree_of_refused hrefused).column]
  exact hclear k (by omega)

/-- The columns of a part of the taken tokens, as its own chart has them. -/
theorem parse_of_isPrefix {before : List Payload} (hcreate : create G goal = .ok p)
    (h : p.feed taken = .ok (q, taken)) (hbefore : before <+: taken) :
    ∃ chart, parse G goal before = .ok chart ∧
      ∀ k ≤ before.length, q.chart.column k = chart.column k := by
  obtain ⟨rest, rfl⟩ := hbefore
  obtain ⟨r, hr, hrest⟩ := feed_append h
  refine ⟨_, parse_of_feed hcreate hr, fun k hk => ?_⟩
  have hposition : r.position = before.length := by
    rw [position_of_feed hr, position_create hcreate, Nat.zero_add]
  rw [Chart.column_ensure, column_feed_of_le hrest (by omega)]

/-- **Refused tokens are invisible and the past is frozen.** A parser that was offered some tokens,
without a faulty pattern, stands where the taken ones lead: its chart is theirs, with nothing behind
it, and every answer is that of a parser that was offered no others. The columns of each part of the
taken tokens are those of its own chart. And every chart has one column more than there are tokens,
all of them empty behind the first token that is refused. -/
theorem refused_tokens_are_invisible (hcreate : create G goal = .ok p)
    (hfeed : p.feed tokens = .ok (q, taken)) :
    taken.Sublist tokens ∧ q.position = taken.length ∧
    (∃ chart, parse G goal taken = .ok chart ∧
      ∀ k ≤ taken.length, q.chart.column k = chart.column k) ∧
    (∀ k, taken.length < k → q.chart.column k = []) ∧
    (∃ fresh, p.feed taken = .ok (fresh, taken) ∧ Alike q fresh) ∧
    (∀ before, before <+: taken → ∃ chart, parse G goal before = .ok chart ∧
      ∀ k ≤ before.length, q.chart.column k = chart.column k) ∧
    (∀ inputs chart, parse G goal inputs = .ok chart → chart.length = inputs.length + 1 ∧
      ∀ before token after r r', inputs = before ++ token :: after →
        p.feed before = .ok (r, before) → r.step token = (r', .ok false) →
        ∀ k, before.length < k → chart.column k = []) := by
  obtain ⟨fresh, hfresh, hagree⟩ := feed_taken hfeed
  have hposition : q.position = taken.length := by
    rw [position_of_feed hfeed, position_create hcreate, Nat.zero_add]
  have hprefix : ∀ before, before <+: taken → ∃ chart, parse G goal before = .ok chart ∧
      ∀ k ≤ before.length, q.chart.column k = chart.column k := by
    intro before hbefore
    obtain ⟨chart, hchart, hcolumns⟩ := parse_of_isPrefix hcreate hfresh hbefore
    exact ⟨chart, hchart, fun k hk => (hagree.column k).trans (hcolumns k hk)⟩
  refine ⟨sublist_of_feed hfeed, hposition, hprefix taken (List.prefix_refl taken), ?_,
    ⟨fresh, hfresh, hagree.alike⟩, hprefix, ?_⟩
  · intro k hk
    exact clear_of_feed (clear_create hcreate) hfeed k (by omega)
  · intro inputs chart hchart
    refine ⟨length_of_parse hchart, ?_⟩
    rintro before token after r r' rfl hbefore hrefused k hk
    exact column_of_parse_refused hcreate hbefore hrefused hchart hk

set_option maxRecDepth 100000 in
/-- A parser of the small grammar that is offered two tokens amid three others, one of them at the
very end, takes these two and answers as if it had been offered nothing else. -/
theorem small_parser_ignores_refused_tokens :
    ∃ G p q, smallGrammar = .ok G ∧ create G (.name "S") = .ok p ∧
      p.feed [.text "b", .text "a", .integer 0, .text "a", .text "a"]
        = .ok (q, [.text "a", .text "a"]) ∧
      (∀ k, 2 < k → q.chart.column k = []) ∧
      ∃ fresh, p.feed [.text "a", .text "a"] = .ok (fresh, [.text "a", .text "a"]) ∧
        Alike q fresh := by
  have hcheck : (smallGrammar.toOption.any fun G => (create G (.name "S")).toOption.any fun p =>
      (p.feed [.text "b", .text "a", .integer 0, .text "a", .text "a"]).toOption.any fun r =>
        decide (r.2 = [.text "a", .text "a"])) = true := by
    decide +kernel
  obtain ⟨G, hG, hcheck⟩ := any_toOption.mp hcheck
  obtain ⟨p, hp, hcheck⟩ := any_toOption.mp hcheck
  obtain ⟨⟨q, taken⟩, hq, hcheck⟩ := any_toOption.mp hcheck
  have htaken : taken = [.text "a", .text "a"] := of_decide_eq_true hcheck
  subst htaken
  obtain ⟨_, _, _, hclear, hfresh, _⟩ := refused_tokens_are_invisible hp hq
  exact ⟨G, p, q, hG, hp, hq, hclear, hfresh⟩

end StochasticGrammar.Parser
