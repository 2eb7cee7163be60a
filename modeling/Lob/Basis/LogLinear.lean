import Mathlib.Data.Nat.Log
import Mathlib.Tactic.Ring
import Mathlib.Tactic.Positivity

/-!
# Log-linear bins

The bin of a number is given by the position of its highest bit and the `b` bits after it: numbers of
at most `b + 1` bits have a bin each, and of a longer number the `spare` low bits are forgotten.
-/

namespace Basis.LogLinear

/-- The number of low bits that the bin of `v` forgets. -/
def spare (b v : ℕ) : ℕ := v.log2 - b

/-- The bin of `v`. -/
def bin (b v : ℕ) : ℕ := spare b v * 2 ^ b + v / 2 ^ spare b v

/-- The least number in bin `i`. -/
def low (b i : ℕ) : ℕ :=
  if i < 2 ^ (b + 1) then i
  else (2 ^ b + (i - 2 ^ (b + 1)) % 2 ^ b) * 2 ^ ((i - 2 ^ (b + 1)) / 2 ^ b + 1)

variable {b v w i : ℕ}

/-! ## The kept bits -/

theorem spare_mono (h : v ≤ w) : spare b v ≤ spare b w := by
  unfold spare
  rw [Nat.log2_eq_log_two, Nat.log2_eq_log_two]
  exact Nat.sub_le_sub_right (Nat.log_mono_right h) b

theorem kept_lt : v / 2 ^ spare b v < 2 ^ (b + 1) := by
  rw [Nat.div_lt_iff_lt_mul (by positivity), ← pow_add]
  refine lt_of_lt_of_le Nat.lt_log2_self (Nat.pow_le_pow_right (by norm_num) ?_)
  unfold spare
  omega

/-- The highest bit is among the kept ones. -/
theorem le_kept (h : 0 < spare b v) : 2 ^ b ≤ v / 2 ^ spare b v := by
  have hlog : b + spare b v = v.log2 := by
    unfold spare at h ⊢
    omega
  have hne : v ≠ 0 := by
    rintro rfl
    exact absurd h (by unfold spare; simp)
  rw [Nat.le_div_iff_mul_le (by positivity), ← pow_add, hlog]
  exact Nat.log2_self_le hne

/-- A number with kept bits `m` and `s` spare bits. -/
theorem spare_eq {m s : ℕ} (hlow : 2 ^ b ≤ m) (hhigh : m < 2 ^ (b + 1)) :
    spare b (m * 2 ^ s) = s := by
  have hlog : (m * 2 ^ s).log2 = b + s := by
    rw [Nat.log2_eq_log_two]
    refine Nat.log_eq_of_pow_le_of_lt_pow ?_ ?_
    · rw [pow_add]
      exact Nat.mul_le_mul_right _ hlow
    · calc m * 2 ^ s < 2 ^ (b + 1) * 2 ^ s := Nat.mul_lt_mul_of_pos_right hhigh (by positivity)
        _ = 2 ^ (b + s + 1) := by ring
  unfold spare
  rw [hlog, Nat.add_sub_cancel_left]

theorem spare_of_lt (h : v < 2 ^ (b + 1)) : spare b v = 0 := by
  unfold spare
  rcases Nat.eq_zero_or_pos v with rfl | hpos
  · simp
  · have hlog : v.log2 < b + 1 := (Nat.log2_lt hpos.ne').mpr h
    omega

theorem bin_of_lt (h : v < 2 ^ (b + 1)) : bin b v = v := by
  unfold bin
  rw [spare_of_lt h, Nat.zero_mul, Nat.zero_add, pow_zero, Nat.div_one]

/-! ## The order of the bins -/

theorem bin_lt : bin b v < (spare b v + 2) * 2 ^ b := by
  have hkept : v / 2 ^ spare b v < 2 ^ (b + 1) := kept_lt
  calc bin b v < spare b v * 2 ^ b + 2 ^ (b + 1) := Nat.add_lt_add_left hkept _
    _ = (spare b v + 2) * 2 ^ b := by ring

theorem le_bin (h : 0 < spare b v) : (spare b v + 1) * 2 ^ b ≤ bin b v := by
  calc (spare b v + 1) * 2 ^ b = spare b v * 2 ^ b + 2 ^ b := by ring
    _ ≤ bin b v := Nat.add_le_add_left (le_kept h) _

/-- **Order.** A larger number has no smaller bin. -/
theorem bin_mono (h : v ≤ w) : bin b v ≤ bin b w := by
  rcases (spare_mono h : spare b v ≤ spare b w).eq_or_lt with heq | hlt
  · unfold bin
    rw [heq]
    exact Nat.add_le_add_left (Nat.div_le_div_right h) _
  · calc bin b v ≤ (spare b v + 2) * 2 ^ b := bin_lt.le
      _ ≤ (spare b w + 1) * 2 ^ b := Nat.mul_le_mul_right _ (by omega)
      _ ≤ bin b w := le_bin (by omega)

/-- Numbers of `n` bits have `(n - b + 1) * 2 ^ b` bins. -/
theorem bin_lt_of_lt {n : ℕ} (hb : b < n) (hv : v < 2 ^ n) : bin b v < (n - b + 1) * 2 ^ b := by
  have hspare : spare b v + 2 ≤ n - b + 1 := by
    unfold spare
    rcases Nat.eq_zero_or_pos v with rfl | hpos
    · rw [Nat.log2_zero]
      omega
    · have hlog : v.log2 < n := (Nat.log2_lt hpos.ne').mpr hv
      omega
  exact lt_of_lt_of_le bin_lt (Nat.mul_le_mul_right _ hspare)

/-! ## The least number of a bin -/

/-- The least number of a bin has that bin. -/
theorem bin_low : bin b (low b i) = i := by
  unfold low
  split_ifs with hi
  · exact bin_of_lt hi
  · have hrem : (i - 2 ^ (b + 1)) % 2 ^ b < 2 ^ b := Nat.mod_lt _ (by positivity)
    have hhigh : 2 ^ b + (i - 2 ^ (b + 1)) % 2 ^ b < 2 ^ (b + 1) := by
      rw [pow_succ]
      omega
    unfold bin
    rw [spare_eq (Nat.le_add_right _ _) hhigh, Nat.mul_div_cancel _ (by positivity)]
    have hsplit := Nat.div_add_mod (i - 2 ^ (b + 1)) (2 ^ b)
    rw [Nat.mul_comm] at hsplit
    calc ((i - 2 ^ (b + 1)) / 2 ^ b + 1) * 2 ^ b + (2 ^ b + (i - 2 ^ (b + 1)) % 2 ^ b)
        = (i - 2 ^ (b + 1)) / 2 ^ b * 2 ^ b + (i - 2 ^ (b + 1)) % 2 ^ b + 2 ^ (b + 1) := by ring
      _ = i - 2 ^ (b + 1) + 2 ^ (b + 1) := by rw [hsplit]
      _ = i := Nat.sub_add_cancel (Nat.le_of_not_lt hi)

theorem low_injective : Function.Injective (low b) := by
  intro i j h
  rw [← bin_low (b := b) (i := i), h, bin_low]

theorem low_mono {j : ℕ} (h : i ≤ j) : low b i ≤ low b j := by
  by_contra hlt
  have hbin := bin_mono (b := b) (Nat.le_of_not_le hlt)
  rw [bin_low, bin_low] at hbin
  exact hlt (by rw [le_antisymm h hbin])

/-- The least number with the bin of `v` is `v` without its spare bits. -/
theorem low_bin : low b (bin b v) = v / 2 ^ spare b v * 2 ^ spare b v := by
  rcases Nat.eq_zero_or_pos (spare b v) with hzero | hpos
  · have hlt : v < 2 ^ (b + 1) := by
      have hkept := kept_lt (b := b) (v := v)
      rwa [hzero, pow_zero, Nat.div_one] at hkept
    unfold low
    rw [bin_of_lt hlt, if_pos hlt, hzero, pow_zero, Nat.div_one, Nat.mul_one]
  · obtain ⟨s, hs⟩ : ∃ s, spare b v = s + 1 := ⟨spare b v - 1, by omega⟩
    obtain ⟨m, hm⟩ := Nat.exists_eq_add_of_le (le_kept hpos)
    have hrem : m < 2 ^ b := by
      have hkept := kept_lt (b := b) (v := v)
      rw [pow_succ] at hkept
      omega
    have hbin : bin b v = s * 2 ^ b + m + 2 ^ (b + 1) := by
      unfold bin
      rw [hm, hs]
      ring
    have hindex : bin b v - 2 ^ (b + 1) = m + s * 2 ^ b := by omega
    unfold low
    rw [if_neg (by omega), hindex, Nat.add_mul_mod_self_right, Nat.mod_eq_of_lt hrem,
      Nat.add_mul_div_right _ _ (by positivity), Nat.div_eq_of_lt hrem, Nat.zero_add, hm, hs]

theorem low_bin_le : low b (bin b v) ≤ v := by
  rw [low_bin]
  exact Nat.div_mul_le_self v _

/-- **Precision.** The spare bits are a small share of the number. -/
theorem sub_low_bin_le : v - low b (bin b v) ≤ v / 2 ^ b := by
  have hsplit := Nat.div_add_mod v (2 ^ spare b v)
  rw [Nat.mul_comm] at hsplit
  have hrest : v - low b (bin b v) = v % 2 ^ spare b v := by
    rw [low_bin]
    omega
  rw [hrest]
  rcases Nat.eq_zero_or_pos (spare b v) with hzero | hpos
  · rw [hzero, pow_zero, Nat.mod_one]
    exact Nat.zero_le _
  · calc v % 2 ^ spare b v ≤ 2 ^ spare b v := (Nat.mod_lt v (by positivity)).le
      _ ≤ v / 2 ^ b := by
        rw [Nat.le_div_iff_mul_le (by positivity), Nat.mul_comm,
          ← Nat.le_div_iff_mul_le (by positivity)]
        exact le_kept hpos

theorem low_bin_of_lt (h : v < 2 ^ (b + 1)) : low b (bin b v) = v := by
  rw [low_bin, spare_of_lt h, pow_zero, Nat.div_one, Nat.mul_one]

end Basis.LogLinear
