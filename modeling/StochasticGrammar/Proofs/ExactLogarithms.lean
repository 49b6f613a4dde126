import StochasticGrammar.Proofs.ExactSolver
import StochasticGrammar.Proofs.TranslatedParser
import StochasticGrammar.Score.Log

/-!
# Exact logarithms

The real numbers with a bottom below them have exact logarithms, zero included. The exponential
takes every operation on such logarithms to the operation on probabilities that it stands for, so it
translates a parser that keeps logarithms into one that keeps probabilities.

> `realLogScale`: exact logarithms.

> `ofLogs`: the exponential as a translation.

> `toOption_compile_ofLogs`: rules are compiled with logarithms if and only if they are with
> numbers.
-/

namespace StochasticGrammar

/-! ## The scale -/

/-- The logarithm of a probability, with the bottom for that of zero. -/
noncomputable def realLog (p : ℝ) : WithBot ℝ :=
  if 0 < p then (Real.log p : ℝ) else ⊥

/-- The number that has a logarithm. -/
noncomputable def realExp : WithBot ℝ → ℝ
  | ⊥ => 0
  | (x : ℝ) => Real.exp x

open scoped Classical in
/-- Logarithms that never round. -/
noncomputable def realLogScale : LogScale ℝ (WithBot ℝ) where
  bottom := ⊥
  unit := (0 : ℝ)
  plus := (· + ·)
  minus := WithBot.map₂ (· - ·)
  lt a b := decide (a < b)
  isBottom a := decide (a = ⊥)
  softplus a := (Real.log (1 + realExp a) : ℝ)
  log p := (Real.log p : ℝ)
  exp a := some (realExp a)

@[simp] theorem realExp_bot : realExp ⊥ = 0 :=
  rfl

@[simp] theorem realExp_coe (x : ℝ) : realExp x = Real.exp x :=
  rfl

/-- What a logarithm stands for is not negative. -/
theorem realExp_nonneg (a : WithBot ℝ) : 0 ≤ realExp a := by
  cases a with
  | bot => exact le_refl 0
  | coe x => exact (Real.exp_pos x).le

/-- No number has two logarithms. -/
theorem realLog_realExp (a : WithBot ℝ) : realLog (realExp a) = a := by
  cases a with
  | bot => exact if_neg (lt_irrefl 0)
  | coe x =>
    rw [realLog, realExp_coe, if_pos (Real.exp_pos x), Real.log_exp]

/-- A logarithm stands for the number it was taken of. -/
theorem realExp_realLog {p : ℝ} (hp : 0 ≤ p) : realExp (realLog p) = p := by
  rw [realLog]
  split
  · rename_i hpos
    exact Real.exp_log hpos
  · rename_i hpos
    exact le_antisymm hp (not_lt.mp hpos)

/-- Logarithms compare as the numbers they stand for. -/
theorem realExp_lt_iff {a b : WithBot ℝ} : realExp a < realExp b ↔ a < b := by
  cases a with
  | bot =>
    cases b with
    | bot => simp
    | coe y => simp [Real.exp_pos, WithBot.bot_lt_coe]
  | coe x =>
    cases b with
    | bot => simp [(Real.exp_pos x).le]
    | coe y => rw [realExp_coe, realExp_coe, Real.exp_lt_exp, WithBot.coe_lt_coe]

/-- Adding logarithms multiplies what they stand for, impossible events included. -/
theorem realExp_add (a b : WithBot ℝ) : realExp (a + b) = realExp a * realExp b := by
  cases a with
  | bot => rw [WithBot.bot_add, realExp_bot, zero_mul]
  | coe x =>
    cases b with
    | bot => rw [WithBot.add_bot, realExp_bot, mul_zero]
    | coe y => exact Real.exp_add x y

/-- A sum from logarithms: what remains when the first number is taken out of it. -/
theorem realExp_plus_softplus (x y : ℝ) :
    realExp (realLogScale.plus x (realLogScale.softplus (realLogScale.minus y x)))
      = realExp x + realExp y := by
  show Real.exp (x + Real.log (1 + Real.exp (y - x))) = Real.exp x + Real.exp y
  have hpos : 0 < 1 + Real.exp (y - x) := add_pos one_pos (Real.exp_pos _)
  rw [Real.exp_add, Real.exp_log hpos, mul_add, mul_one, ← Real.exp_add, add_sub_cancel]

theorem isBottom_iff {a : WithBot ℝ} : realLogScale.isBottom a = true ↔ a = ⊥ :=
  decide_eq_true_iff

theorem lt_iff {a b : WithBot ℝ} : realLogScale.lt a b = true ↔ a < b :=
  decide_eq_true_iff

/-- **The sum of two scores stands for the sum**, in each of the cases that the code tells apart. -/
theorem realExp_logSum (a b : WithBot ℝ) :
    realExp (realLogScale.logSum a b) = realExp a + realExp b := by
  have hsum : ∀ {hi lo : WithBot ℝ}, lo ≤ hi →
      realExp (if realLogScale.isBottom lo then hi
        else realLogScale.plus hi (realLogScale.softplus (realLogScale.minus lo hi)))
        = realExp hi + realExp lo := by
    intro hi lo hle
    cases lo with
    | bot => rw [if_pos (isBottom_iff.mpr rfl), realExp_bot, add_zero]
    | coe y =>
      rw [if_neg (mt isBottom_iff.mp (WithBot.coe_ne_bot))]
      cases hi with
      | bot => exact absurd hle (WithBot.not_coe_le_bot y)
      | coe x => exact realExp_plus_softplus x y
  unfold LogScale.logSum
  by_cases hab : a < b
  · rw [if_pos (lt_iff.mpr hab), add_comm]
    exact hsum hab.le
  · rw [if_neg (mt lt_iff.mp hab)]
    exact hsum (not_lt.mp hab)

/-- **The product of two scores stands for the product.** -/
theorem realExp_logProd (a b : WithBot ℝ) :
    realExp (realLogScale.logProd a b) = realExp a * realExp b := by
  unfold LogScale.logProd
  split
  · rename_i hbottom
    rcases Bool.or_eq_true_iff.mp hbottom with h | h
    · rw [isBottom_iff.mp h, realExp_bot, zero_mul]
      rfl
    · rw [isBottom_iff.mp h, realExp_bot, mul_zero]
      rfl
  · exact realExp_add a b

/-- **The exponential translates logarithms into probabilities.** -/
noncomputable def ofLogs : Translation (logScores realLogScale) (linearScores ℝ) where
  symbol := id
  score := realExp
  same _ := BEq.rfl
  injective := Function.LeftInverse.injective realLog_realExp
  zero := rfl
  one := Real.exp_zero.symm
  add a b := (realExp_logSum a b).symm
  mul a b := (realExp_logProd a b).symm
  lt _ _ := decide_eq_decide.mpr realExp_lt_iff
  ofProbability hp := (realExp_realLog hp).symm
  toProbability _ := rfl

/-! ## Compiled grammars -/

variable {solver : Solver ℝ}

theorem head_ofLogs (h : RuleHead) : ofLogs.head h = h := by
  show (⟨h.kind, h.lhs, h.rhs.map id⟩ : RuleHead) = h
  rw [List.map_id]

/-- **A builder makes of rules with numbers what it makes of them with logarithms.** -/
theorem toOption_compile_ofLogs (hsolver : solver.IsExact) (normalize : Bool)
    (rules : List (RuleHead × ℝ)) :
    (Builder.compile solver (linearScores ℝ) normalize rules).toOption
      = (Builder.compile solver (logScores realLogScale) normalize rules).toOption.map
          ofLogs.grammar := by
  have h := ofLogs.toOption_compile hsolver normalize rules
  simp only [head_ofLogs, Prod.mk.eta, List.map_id'] at h
  exact h

/-- **The grammar with a loop, compiled with logarithms**: a parser for it accepts the token that
the one for probabilities accepts. -/
theorem exists_fed_loopLogs :
    ∃ (G : Grammar ℝ (WithBot ℝ)) (p q : Parser ℝ (WithBot ℝ)),
      Builder.compile realSolver (logScores realLogScale) false loopHeads = .ok G ∧
      Parser.create G (.name "S") = .ok p ∧ p.feed [.text "a"] = .ok (q, [.text "a"]) ∧
      q.isAccepted = true := by
  obtain ⟨G', hloop, hrules⟩ := exists_loopGrammar
  obtain ⟨q', hfed, haccepted⟩ := Parser.exists_fed_loopGrammar hloop hrules
  obtain ⟨p', hcreate, hfeed⟩ := hfed.exists_feed
  have hcompile := toOption_compile_ofLogs isExact_realSolver false loopHeads
  rw [compile_loopHeads, hloop] at hcompile
  obtain ⟨G, hG, rfl⟩ := Option.map_eq_some_iff.mp hcompile.symm
  have hG := toOption_eq_some.mp hG
  obtain ⟨hC, halgebra⟩ := (Grammar.built_of_compile hG).compiled
  have hmap : Parser.create (ofLogs.grammar G) (.name "S")
      = (Parser.create G (.name "S")).map ofLogs.parser :=
    ofLogs.create_grammar halgebra (hC.bestEmptyProbability_nonneg _)
  obtain ⟨p, hp, rfl⟩ := map_eq_ok.mp (hmap.symm.trans hcreate)
  have hgrammar : p.grammar = G := (Parser.holds_create hp).grammar
  rw [ofLogs.parser_feed (hgrammar ▸ halgebra)] at hfeed
  obtain ⟨⟨q, taken⟩, hq, hout⟩ := map_eq_ok.mp hfeed
  cases hout
  rw [ofLogs.parser_isAccepted] at haccepted
  exact ⟨G, p, q, hG, hp, hq, haccepted⟩

end StochasticGrammar
