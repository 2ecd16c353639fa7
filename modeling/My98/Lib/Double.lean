/-
  My98.Lib.Double — which number a double holds.

  A double is the rational it stands for; `none` is an infinity.  `double q` is the one nearest to
  `q`, and of two that are as near the one with an even last bit.

    • `double_int` — integers below `2 ^ 53` are doubles.
-/
import Mathlib.Data.Int.Log
import Mathlib.Data.Rat.Floor
import Mathlib.Tactic.Common
import Mathlib.Tactic.Linarith
import Mathlib.Tactic.NormNum

namespace My98.Lib

/-- The nearest integer, the even one of two. -/
def roundEven (q : ℚ) : ℤ :=
  if q - ⌊q⌋ < 1 / 2 then ⌊q⌋
  else if 1 / 2 < q - ⌊q⌋ then ⌊q⌋ + 1
  else if ⌊q⌋ % 2 = 0 then ⌊q⌋
  else ⌊q⌋ + 1

/-- The exponent of the last of 53 bits; no bit is worth less than `2 ^ -1074`. -/
def lastBit (q : ℚ) : ℤ := max (Int.log 2 |q|) (-1022) - 52

def double (q : ℚ) : Option ℚ :=
  let d : ℚ := roundEven (q / 2 ^ lastBit q) * 2 ^ lastBit q
  if |d| < 2 ^ 1024 then some d else none

theorem roundEven_int (n : ℤ) : roundEven n = n := by
  rw [roundEven, Int.floor_intCast, sub_self, if_pos (by norm_num)]

/-- The last bit of an integer below `2 ^ 53` is not worth less than one. -/
theorem lastBit_int {n : ℤ} (hn : n ≠ 0) (h : |n| < 2 ^ 53) : lastBit n ≤ 0 := by
  have hpos : (0 : ℚ) < |(n : ℚ)| := abs_pos.mpr (Int.cast_ne_zero.mpr hn)
  have hlt : |(n : ℚ)| < (2 : ℕ) ^ (53 : ℤ) := by exact_mod_cast h
  have hlog : Int.log 2 |(n : ℚ)| < 53 := (Int.lt_zpow_iff_log_lt (by norm_num) hpos).mp hlt
  unfold lastBit
  omega

/-- **Integers below `2 ^ 53` are doubles.** -/
theorem double_int {n : ℤ} (h : |n| < 2 ^ 53) : double (n : ℚ) = some (n : ℚ) := by
  have hexact : (roundEven ((n : ℚ) / 2 ^ lastBit n) : ℚ) * 2 ^ lastBit n = n := by
    by_cases hn : n = 0
    · subst hn
      rw [Int.cast_zero, zero_div, ← Int.cast_zero, roundEven_int, Int.cast_zero, zero_mul]
    · -- dividing by the last bit multiplies by a power of two
      obtain ⟨k, hk⟩ := Int.eq_ofNat_of_zero_le (show 0 ≤ -lastBit n by have := lastBit_int hn h; omega)
      have hbit : lastBit n = -(k : ℤ) := by omega
      have hquotient : (n : ℚ) / 2 ^ lastBit n = ((n * 2 ^ k : ℤ) : ℚ) := by
        rw [hbit, zpow_neg, zpow_natCast, div_inv_eq_mul]
        push_cast
        rfl
      rw [hquotient, roundEven_int, hbit, zpow_neg, zpow_natCast]
      push_cast
      exact mul_inv_cancel_right₀ (by positivity) _
  have hbound : |(n : ℚ)| < 2 ^ 1024 := by
    have hlt : |(n : ℚ)| < 2 ^ 53 := by exact_mod_cast h
    exact hlt.trans (pow_lt_pow_right₀ (by norm_num) (by norm_num))
  rw [double, hexact, if_pos hbound]

end My98.Lib
