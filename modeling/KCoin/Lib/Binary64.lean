import Mathlib.Data.Int.Log
import Mathlib.Data.Rat.Floor
import Mathlib.Tactic.Linarith

/-!
# Rounding to binary64

The finite value of a double-precision number that is nearest to a magnitude, ties to even. Whole
numbers below `2 ^ 53` are not changed (`round_natCast`).
-/

namespace Binary64

/-- The nearest integer, ties to even. -/
def nearestEven (q : ℚ) : ℤ :=
  let below := ⌊q⌋
  if q - below < 1 / 2 then below
  else if 1 / 2 < q - below then below + 1
  else if below % 2 = 0 then below
  else below + 1

/-- The exponent of the last place of the significand, which has 53 bits above it and is at least
that of the subnormal numbers. -/
def lastPlace (q : ℚ) : ℤ := max (Int.log 2 q - 52) (-1074)

/-- The value of the number nearest to a magnitude, unless that is an infinity. -/
def round (q : ℚ) : Option ℚ :=
  let value := nearestEven (q / 2 ^ lastPlace q) * (2 : ℚ) ^ lastPlace q
  if value < 2 ^ 1024 then some value else none

theorem nearestEven_intCast (n : ℤ) : nearestEven n = n := by
  rw [nearestEven, Int.floor_intCast]
  exact if_pos (by rw [sub_self]; norm_num)

/-- A whole number of 53 bits has no place below its last one. -/
theorem lastPlace_natCast {n : ℕ} (h : n < 2 ^ 53) : lastPlace n ≤ 0 := by
  have hlog : Nat.log 2 n < 53 := Nat.log_lt_of_lt_pow' (by omega) h
  rw [lastPlace, Int.log_natCast]
  omega

theorem round_natCast {n : ℕ} (h : n < 2 ^ 53) : round n = some (n : ℚ) := by
  obtain ⟨k, hk⟩ := Int.eq_ofNat_of_zero_le (neg_nonneg.2 (lastPlace_natCast h))
  have hplace : lastPlace n = -(k : ℤ) := by omega
  have hpow : (2 : ℚ) ^ k ≠ 0 := pow_ne_zero k two_ne_zero
  have hscaled : (n : ℚ) / 2 ^ lastPlace n = ((n * 2 ^ k : ℕ) : ℤ) := by
    rw [hplace, zpow_neg, zpow_natCast, div_inv_eq_mul]
    norm_cast
  have hvalue : nearestEven ((n : ℚ) / 2 ^ lastPlace n) * (2 : ℚ) ^ lastPlace n = n := by
    rw [hscaled, nearestEven_intCast, hplace, zpow_neg, zpow_natCast]
    push_cast
    rw [mul_assoc, mul_inv_cancel₀ hpow, mul_one]
  have hsmall : (n : ℚ) < 2 ^ 53 := by exact_mod_cast h
  have hlt : (n : ℚ) < 2 ^ 1024 :=
    hsmall.trans_le (pow_le_pow_right₀ one_le_two (by omega))
  rw [round, hvalue, if_pos hlt]

end Binary64
