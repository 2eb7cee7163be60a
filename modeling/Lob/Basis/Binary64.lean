import Mathlib.Data.Rat.Floor
import Mathlib.Data.Int.Log
import Mathlib.Tactic.NormNum

/-!
# The numbers of binary64 literals

A decimal literal denotes the nearest number with 53 significant bits, the even one of two that are
equally near. The exponent range is left out.
-/

namespace Basis

/-- The nearest integer, the even one of two. -/
def roundHalfEven (x : ℚ) : ℤ :=
  if x - ⌊x⌋ < 1 / 2 then ⌊x⌋
  else if x - ⌊x⌋ > 1 / 2 then ⌊x⌋ + 1
  else if ⌊x⌋ % 2 = 0 then ⌊x⌋ else ⌊x⌋ + 1

/-- The binary64 number that a positive decimal denotes. -/
def binary64 (x : ℚ) : ℚ :=
  roundHalfEven (x * 2 ^ (52 - Int.log 2 x)) / 2 ^ (52 - Int.log 2 x)

theorem roundHalfEven_intCast (n : ℤ) : roundHalfEven n = n := by
  unfold roundHalfEven
  rw [Int.floor_intCast, sub_self, if_pos (by norm_num)]

/-- Integers of 53 bits are exact. -/
theorem binary64_natCast {n : ℕ} (hn : n < 2 ^ 53) : binary64 n = n := by
  have hlog : Int.log 2 (n : ℚ) = Nat.log 2 n := Int.log_natCast 2 n
  have hle : Nat.log 2 n ≤ 52 := Nat.lt_succ_iff.mp (Nat.log_lt_of_lt_pow' (by norm_num) hn)
  obtain ⟨e, he⟩ := Nat.exists_eq_add_of_le hle
  have hexponent : (52 - Int.log 2 (n : ℚ)) = (e : ℤ) := by
    rw [hlog]
    omega
  unfold binary64
  rw [hexponent, zpow_natCast, show (n : ℚ) * 2 ^ e = ((n * 2 ^ e : ℤ) : ℚ) by push_cast; rfl,
    roundHalfEven_intCast]
  push_cast
  exact mul_div_cancel_right₀ _ (pow_ne_zero e two_ne_zero)

end Basis
