import Northstack.Core.JsonText

/-!
# Rounding to doubles

`roundDouble` takes a rational to the nearest double. A double is a value it
leaves alone.

**Results.**
* `floorLog_eq`: `floorLog` is the integer logarithm.
* `roundDouble_double`: what `roundDouble` gives is a double.
* `den_of_double`: a double's denominator is a power of two.
-/

namespace PyText

theorem roundHalfEven_int (n : Int) : roundHalfEven n = n := by
  unfold roundHalfEven
  simp

/-- Rounding moves a number by at most a half. -/
theorem roundHalfEven_bounds (q : ℚ) :
    (roundHalfEven q : ℚ) ≤ q + 1 / 2 ∧ q - 1 / 2 ≤ roundHalfEven q := by
  have hf := Int.floor_le q
  have hl := Int.lt_floor_add_one q
  unfold roundHalfEven
  dsimp only
  split
  · constructor <;> linarith
  · split
    · push_cast
      constructor <;> linarith
    · split
      · constructor <;> linarith
      · push_cast
        constructor <;> linarith

/-- Rounding does not cross an integer. -/
theorem roundHalfEven_le {q : ℚ} {n : Int} (h : q ≤ n) : roundHalfEven q ≤ n := by
  have hb := (roundHalfEven_bounds q).1
  by_contra hlt
  have hlt : n + 1 ≤ roundHalfEven q := by omega
  have hlt : (n : ℚ) + 1 ≤ roundHalfEven q := by exact_mod_cast hlt
  linarith

theorem le_roundHalfEven {q : ℚ} {n : Int} (h : (n : ℚ) ≤ q) : n ≤ roundHalfEven q := by
  have hb := (roundHalfEven_bounds q).2
  by_contra hlt
  have hlt : roundHalfEven q + 1 ≤ n := by omega
  have hlt : (roundHalfEven q : ℚ) + 1 ≤ n := by exact_mod_cast hlt
  linarith

theorem log_pred {b n : Nat} (hb : 1 < b) (hn : 2 ≤ n) : Nat.log b (n - 1) + 1 = Nat.clog b n := by
  have hne : n - 1 ≠ 0 := by omega
  refine le_antisymm ?_ ((Nat.clog_le_iff_le_pow hb).mpr ?_)
  · have hle := (Nat.clog_le_iff_le_pow hb).mp (le_refl (Nat.clog b n))
    exact (Nat.log_lt_iff_lt_pow hb hne).mpr (by omega)
  · have hlt : n - 1 < b ^ (Nat.log b (n - 1) + 1) :=
      (Nat.log_lt_iff_lt_pow hb hne).mp (Nat.lt_succ_self _)
    omega

theorem floorLog_eq {b : Nat} (hb : 1 < b) {q : ℚ} (hq : 0 < q) : floorLog b q = Int.log b q := by
  unfold floorLog
  split
  · rename_i h1
    rw [Int.log_of_one_le_right _ h1]
    rfl
  · rename_i h1
    rw [Int.log_of_right_le_one _ (le_of_not_ge h1)]
    have hinv : 1 < q⁻¹ := (one_lt_inv₀ hq).mpr (not_le.mp h1)
    have hceil : 2 ≤ ⌈q⁻¹⌉₊ := by
      have : (1 : ℕ) < ⌈q⁻¹⌉₊ := Nat.lt_ceil.mpr (by exact_mod_cast hinv)
      omega
    have hcast : ⌈1 / q⌉.toNat = ⌈q⁻¹⌉₊ := by rw [one_div]; rfl
    rw [hcast, log_pred hb hceil]

end PyText

/-! ## Doubles -/

/-- A value `roundDouble` leaves alone. -/
def PyFloat.IsDouble : PyFloat → Prop
  | .finite neg mag => roundDouble neg mag = .finite neg mag
  | _ => True

/-- The exponent of the last place of the double nearest to `q`. -/
def lastPlace (q : ℚ) : Int := max (PyText.floorLog 2 q - 52) (-1074)

theorem roundDouble_pos {neg : Bool} {q : ℚ≥0} (hq : q ≠ 0) :
    roundDouble neg q =
      (let v : ℚ≥0 := (PyText.roundHalfEven ((q : ℚ) / 2 ^ lastPlace q)).toNat * 2 ^ lastPlace q
       if v < 2 ^ 1024 then .finite neg v else .inf neg) := by
  unfold roundDouble
  rw [if_neg hq]
  rfl

/-- A number of at most 53 places at `k` keeps them when it is rounded again. -/
theorem rounded_places {m : Int} {k : Int} (hm : 0 < m) (hm' : m ≤ 2 ^ 53) (hk : -1074 ≤ k) :
    ∃ n : Int, ((m : ℚ) * 2 ^ k) / 2 ^ lastPlace ((m : ℚ) * 2 ^ k) = n := by
  have hv : 0 < (m : ℚ) * 2 ^ k := by positivity
  unfold lastPlace
  rw [PyText.floorLog_eq one_lt_two hv]
  rcases lt_or_eq_of_le hm' with hlt | rfl
  · have hup : (m : ℚ) * 2 ^ k < ((2 : ℕ) : ℚ) ^ (k + 53) := by
      rw [Nat.cast_ofNat, zpow_add₀ two_ne_zero, mul_comm]
      have : (m : ℚ) < 2 ^ (53 : ℤ) := by exact_mod_cast hlt
      gcongr
    have hlog := (Int.lt_zpow_iff_log_lt one_lt_two hv).mp hup
    obtain ⟨j, hj⟩ := Int.eq_ofNat_of_zero_le
      (show 0 ≤ k - max (Int.log 2 ((m : ℚ) * 2 ^ k) - 52) (-1074) by omega)
    refine ⟨m * 2 ^ j, ?_⟩
    rw [mul_div_assoc, ← zpow_sub₀ two_ne_zero, hj]
    push_cast
    rfl
  · have hpow : ((2 ^ 53 : Int) : ℚ) * 2 ^ k = ((2 : ℕ) : ℚ) ^ (k + 53) := by
      rw [Nat.cast_ofNat, zpow_add₀ two_ne_zero, mul_comm]
      norm_num
    rw [hpow, Int.log_zpow one_lt_two, max_eq_left (by omega)]
    refine ⟨2 ^ 52, ?_⟩
    rw [Nat.cast_ofNat, ← zpow_sub₀ two_ne_zero, show k + 53 - (k + 53 - 52) = 52 by omega]
    norm_num

/-- **Doubles.** Rounding gives a double. -/
theorem roundDouble_double (neg : Bool) (q : ℚ≥0) : (roundDouble neg q).IsDouble := by
  by_cases hq : q = 0
  · subst hq
    rfl
  have hpos : (0 : ℚ) < q := by exact_mod_cast pos_iff_ne_zero.mpr hq
  rw [roundDouble_pos hq]
  dsimp only
  split
  · rename_i hlt
    have hk : -1074 ≤ lastPlace q := le_max_right _ _
    generalize hkdef : lastPlace (q : ℚ) = k at *
    set m := PyText.roundHalfEven ((q : ℚ) / 2 ^ k) with hm
    have hmnn : 0 ≤ m := PyText.le_roundHalfEven (by push_cast; positivity)
    have hmle : m ≤ 2 ^ 53 := by
      refine PyText.roundHalfEven_le ?_
      have hup := Int.lt_zpow_succ_log_self one_lt_two (q : ℚ)
      have hexp : Int.log 2 (q : ℚ) + 1 ≤ k + 53 := by
        rw [← hkdef]
        unfold lastPlace
        rw [PyText.floorLog_eq one_lt_two hpos]
        omega
      have hle : (q : ℚ) ≤ 2 ^ (k + 53) :=
        hup.le.trans (by rw [Nat.cast_ofNat]; exact zpow_le_zpow_right₀ one_le_two hexp)
      rw [div_le_iff₀ (by positivity)]
      rw [zpow_add₀ two_ne_zero, mul_comm] at hle
      exact_mod_cast hle
    show roundDouble neg ((m.toNat : ℚ≥0) * 2 ^ k) = _
    rcases eq_or_lt_of_le hmnn with hz | hmpos
    · rw [← hz]
      simp [roundDouble]
    · have hne : (m.toNat : ℚ≥0) * 2 ^ k ≠ 0 := by
        have : m.toNat ≠ 0 := by omega
        positivity
      have hcast : (((m.toNat : ℚ≥0) * 2 ^ k : ℚ≥0) : ℚ) = (m : ℚ) * 2 ^ k := by
        push_cast
        rw [show ((m.toNat : ℕ) : ℚ) = (m : ℚ) by exact_mod_cast Int.toNat_of_nonneg hmnn]
      obtain ⟨n, hn⟩ := rounded_places hmpos hmle hk
      rw [roundDouble_pos hne, hcast, hn, PyText.roundHalfEven_int]
      have hnn : 0 ≤ n := by
        have : (0 : ℚ) ≤ n := by rw [← hn]; positivity
        exact_mod_cast this
      have hback : (n.toNat : ℚ≥0) * 2 ^ lastPlace ((m : ℚ) * 2 ^ k) =
          (m.toNat : ℚ≥0) * 2 ^ k := by
        rw [← NNRat.coe_inj, hcast]
        push_cast
        rw [show ((n.toNat : ℕ) : ℚ) = (n : ℚ) by exact_mod_cast Int.toNat_of_nonneg hnn, ← hn,
          div_mul_cancel₀ _ (by positivity)]
      dsimp only
      rw [hback, if_pos hlt]
  · trivial

/-- **Dyadic.** A double's denominator is a power of two. -/
theorem den_of_double {neg : Bool} {q : ℚ≥0} (h : (PyFloat.finite neg q).IsDouble) :
    ∃ j, q.den = 2 ^ j := by
  by_cases hq : q = 0
  · exact ⟨0, by rw [hq]; rfl⟩
  have hd : roundDouble neg q = .finite neg q := h
  rw [roundDouble_pos hq] at hd
  dsimp only at hd
  generalize (PyText.roundHalfEven ((q : ℚ) / 2 ^ lastPlace q)).toNat = m at hd
  generalize lastPlace (q : ℚ) = k at hd
  split at hd
  · have hv : (m : ℚ≥0) * 2 ^ k = q := by
      injection hd
    have hpow : q.den ∣ 2 ^ k.natAbs := by
      have hden : ((q : ℚ)).den ∣ 2 ^ k.natAbs := by
        have hq' : (q : ℚ) = Rat.divInt (m * 2 ^ k.toNat) (2 ^ (-k).toNat) := by
          rw [← hv, Rat.divInt_eq_div]
          push_cast
          rw [mul_div_assoc, ← zpow_natCast, ← zpow_natCast, ← zpow_sub₀ two_ne_zero]
          congr 2
          omega
        have hdvd := Rat.den_dvd (m * 2 ^ k.toNat) (2 ^ (-k).toNat)
        rw [← hq'] at hdvd
        have hle : (2 : ℕ) ^ (-k).toNat ∣ 2 ^ k.natAbs := pow_dvd_pow 2 (by omega)
        exact dvd_trans (by exact_mod_cast hdvd) hle
      exact hden
    obtain ⟨j, -, hj⟩ := (Nat.dvd_prime_pow Nat.prime_two).mp hpow
    exact ⟨j, hj⟩
  · cases hd
