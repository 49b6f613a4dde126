import Mathlib.Data.List.Induction

/-!
# First appearances

A list that is read from the left, and from which what has come before is left out: this is how
tables come by their keys and columns by their states. Members are the same up to the spelling of
values, and the spelling that stays is the first.

> `eraseDups_concat`: what a new member adds.

> `pairwise_eraseDups`: nothing stands twice.
-/

namespace StochasticGrammar

variable {α : Type} [BEq α] [EquivBEq α]

/-- A member that has come before adds nothing, a new one comes last. -/
theorem eraseDups_concat (l : List α) (a : α) :
    (l ++ [a]).eraseDups = if l.any (· == a) then l.eraseDups else l.eraseDups ++ [a] := by
  match l with
  | [] => rfl
  | b :: l =>
    rw [List.cons_append, List.eraseDups_cons, List.eraseDups_cons, List.filter_append,
      List.any_cons]
    by_cases hba : (b == a) = true
    · -- the new member is left out together with the other copies of the first
      have hlast : [a].filter (fun c => !c == b) = [] := by
        simp [BEq.symm hba]
      rw [hlast, List.append_nil, hba, Bool.true_or, if_pos rfl]
    · have hlast : [a].filter (fun c => !c == b) = [a] := by
        have hab : ¬ (a == b) = true := fun hab => hba (BEq.symm hab)
        simp [hab]
      have hany : (l.filter fun c => !c == b).any (· == a) = l.any (· == a) := by
        rw [List.any_filter]
        congr 1
        funext c
        by_cases hca : (c == a) = true
        · have hcb : ¬ (c == b) = true := fun hcb => hba (BEq.trans (BEq.symm hcb) hca)
          simp [hca, hcb]
        · simp [hca]
      rw [hlast, eraseDups_concat, hany, Bool.eq_false_iff.mpr hba, Bool.false_or]
      split
      · rfl
      · rfl
termination_by l.length
decreasing_by exact Nat.lt_succ_of_le (List.length_filter_le _ _)

/-- Nothing is lost but copies. -/
theorem any_eraseDups (l : List α) (a : α) : l.eraseDups.any (· == a) = l.any (· == a) := by
  induction l using List.reverseRecOn with
  | nil => rfl
  | append_singleton l b ih =>
    rw [eraseDups_concat, List.any_append]
    by_cases hb : l.any (· == b) = true
    · rw [if_pos hb, ih]
      by_cases hba : (b == a) = true
      · obtain ⟨c, hc, hcb⟩ := List.any_eq_true.mp hb
        have hany : l.any (· == a) = true := List.any_eq_true.mpr ⟨c, hc, BEq.trans hcb hba⟩
        rw [hany, Bool.true_or]
      · simp [hba]
    · rw [if_neg hb, List.any_append, ih]

/-- No two members that are left are the same. -/
theorem pairwise_eraseDups (l : List α) : l.eraseDups.Pairwise fun a b => ¬ (a == b) = true := by
  induction l using List.reverseRecOn with
  | nil => exact .nil
  | append_singleton l b ih =>
    rw [eraseDups_concat]
    split
    · exact ih
    · next hb =>
      refine List.pairwise_append.mpr ⟨ih, List.pairwise_singleton _ _, fun a ha c hc hac => hb ?_⟩
      rw [List.mem_singleton.mp hc] at hac
      rw [← any_eraseDups]
      exact List.any_eq_true.mpr ⟨a, ha, hac⟩

end StochasticGrammar
