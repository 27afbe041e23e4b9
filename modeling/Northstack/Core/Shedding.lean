import Mathlib

/-!
# Shedding from the front

A list gives up its first places, one after another, until what is left fits,
but keeps so many.

**Results.**
* `shed_fewest`: before the last one goes, what is left does not fit.
* `shed_stops`: what is left fits, or it is what is kept anyway.
-/
namespace Shedding

variable {β : Type} {fits : List β → Bool} {keep : Nat} {xs : List β}

/-- How many places go. -/
def shed (fits : List β → Bool) (keep : Nat) : List β → Nat
  | [] => 0
  | x :: xs =>
    if fits (x :: xs) then 0
    else if (x :: xs).length ≤ keep then 0
    else shed fits keep xs + 1

theorem shed_le : shed fits keep xs ≤ xs.length - keep := by
  induction xs with
  | nil => exact Nat.zero_le _
  | cons x xs ih =>
    unfold shed
    by_cases hf : fits (x :: xs) = true
    · rw [if_pos hf]
      exact Nat.zero_le _
    · by_cases hk : (x :: xs).length ≤ keep
      · rw [if_neg hf, if_pos hk]
        exact Nat.zero_le _
      · rw [if_neg hf, if_neg hk]
        rw [List.length_cons] at hk ⊢
        omega

/-- With fewer gone, what is left does not fit. -/
theorem shed_fewest : ∀ k < shed fits keep xs, fits (xs.drop k) = false := by
  induction xs with
  | nil => exact fun k hk => absurd hk (Nat.not_lt_zero k)
  | cons x xs ih =>
    intro k hk
    unfold shed at hk
    by_cases hf : fits (x :: xs) = true
    · rw [if_pos hf] at hk
      exact absurd hk (Nat.not_lt_zero k)
    · by_cases hlen : (x :: xs).length ≤ keep
      · rw [if_neg hf, if_pos hlen] at hk
        exact absurd hk (Nat.not_lt_zero k)
      · rw [if_neg hf, if_neg hlen] at hk
        cases k with
        | zero => exact eq_false_of_ne_true hf
        | succ k => exact ih k (by omega)

/-- Either what is left fits, or no more could go. -/
theorem shed_stops : fits (xs.drop (shed fits keep xs)) = true ∨
    xs.length - shed fits keep xs = min keep xs.length := by
  induction xs with
  | nil => exact .inr (by simp)
  | cons x xs ih =>
    unfold shed
    by_cases hf : fits (x :: xs) = true
    · rw [if_pos hf]
      exact .inl hf
    · by_cases hlen : (x :: xs).length ≤ keep
      · rw [if_neg hf, if_pos hlen]
        exact .inr (by omega)
      · rw [if_neg hf, if_neg hlen, List.drop_succ_cons, List.length_cons]
        rw [List.length_cons] at hlen
        rcases ih with h | h
        · exact .inl h
        · exact .inr (by omega)

end Shedding
