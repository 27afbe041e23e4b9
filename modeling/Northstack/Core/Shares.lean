import Northstack.Core.DoubleRounding

/-!
# Rounding the shares of a whole

What is lost or gained when a list of numbers is rounded one by one: down, or to
the nearest integer with ties to the even one.

**Results.**
* `sum_floor_le`: rounded down, the numbers add up to no more than before.
* `sum_roundHalfEven_le_iff`: rounded to the nearest, they do so if and only if
  those rounded up are no more than the fractional parts make together.
-/
namespace Northstack

theorem sum_floor_le (qs : List ℚ≥0) : ((qs.map Nat.floor).sum : ℚ≥0) ≤ qs.sum := by
  induction qs with
  | nil => exact le_refl _
  | cons q qs ih =>
    simp only [List.map_cons, List.sum_cons, Nat.cast_add]
    exact add_le_add (Nat.floor_le zero_le) ih

/-- Rounding to the nearest integer, ties to even, goes up. -/
def RoundsUp (q : ℚ) : Prop :=
  1 / 2 < Int.fract q ∨ Int.fract q = 1 / 2 ∧ ⌊q⌋ % 2 ≠ 0

instance : DecidablePred RoundsUp := fun _ => inferInstanceAs (Decidable (_ ∨ _))

theorem roundHalfEven_eq (q : ℚ) :
    PyText.roundHalfEven q = ⌊q⌋ + if RoundsUp q then 1 else 0 := by
  have hup : RoundsUp q ↔ 1 / 2 < q - ⌊q⌋ ∨ q - ⌊q⌋ = 1 / 2 ∧ ⌊q⌋ % 2 ≠ 0 := Iff.rfl
  rw [if_congr hup rfl rfl]
  unfold PyText.roundHalfEven
  dsimp only
  by_cases hlt : q - ⌊q⌋ < 1 / 2
  · rw [if_pos hlt, if_neg, add_zero]
    rintro (h | ⟨h, -⟩) <;> linarith
  · rw [if_neg hlt]
    by_cases hgt : q - ⌊q⌋ > 1 / 2
    · rw [if_pos hgt, if_pos (.inl hgt)]
    · have hhalf : q - ⌊q⌋ = 1 / 2 := le_antisymm (not_lt.mp hgt) (not_lt.mp hlt)
      rw [if_neg hgt]
      by_cases heven : ⌊q⌋ % 2 = 0
      · rw [if_pos heven, if_neg, add_zero]
        rintro (h | ⟨-, h⟩)
        · exact hgt h
        · exact h heven
      · rw [if_neg heven, if_pos (.inr ⟨hhalf, heven⟩)]

theorem sum_roundHalfEven (qs : List ℚ) :
    ((qs.map PyText.roundHalfEven).sum : ℤ) =
      (qs.map Int.floor).sum + qs.countP fun q => RoundsUp q := by
  induction qs with
  | nil => rfl
  | cons q qs ih =>
    simp only [List.map_cons, List.sum_cons, List.countP_cons, decide_eq_true_eq]
    rw [ih, roundHalfEven_eq]
    push_cast
    ring

theorem sum_floor_add_fract (qs : List ℚ) :
    qs.sum = ((qs.map Int.floor).sum : ℤ) + (qs.map Int.fract).sum := by
  induction qs with
  | nil => simp
  | cons q qs ih =>
    simp only [List.map_cons, List.sum_cons, Int.cast_add]
    calc q + qs.sum = (⌊q⌋ + Int.fract q) +
          (((qs.map Int.floor).sum : ℤ) + (qs.map Int.fract).sum) := by
            rw [Int.floor_add_fract, ← ih]
      _ = _ := by ring

/-- **Rounding.** Numbers rounded to the nearest integer add up to no more than
before if and only if those rounded up are no more than all fractional parts make
together. -/
theorem sum_roundHalfEven_le_iff (qs : List ℚ) :
    ((qs.map PyText.roundHalfEven).sum : ℤ) ≤ qs.sum ↔
      ((qs.countP fun q => RoundsUp q : Nat) : ℚ) ≤ (qs.map Int.fract).sum := by
  rw [sum_roundHalfEven, sum_floor_add_fract qs]
  push_cast
  exact add_le_add_iff_left _

end Northstack
