import Mathlib.Order.Bounds.Basic
import Mathlib.Tactic.Common
import Mathlib.Order.Lattice.Nat

/-!
# Extremes of a set of numbers, digit by digit

A set of numbers below `c * n` splits by its leading digit in base `n`. The least element has the
least leading digit that occurs, followed by the least remainder among the elements with that
digit; dually for the greatest.
-/

namespace Basis

/-- The remainders of the elements of `S` whose leading digit is `d`. -/
def fibre (n : ℕ) (S : Set ℕ) (d : ℕ) : Set ℕ := {r | r < n ∧ d * n + r ∈ S}

theorem mem_fibre_div_mod {n : ℕ} {S : Set ℕ} (hn : 0 < n) {x : ℕ} (hx : x ∈ S) :
    x % n ∈ fibre n S (x / n) :=
  ⟨Nat.mod_lt x hn, by rwa [Nat.div_add_mod' x n]⟩

/-- Numbers with remainders below the base are equal only if digit and remainder are. -/
theorem digits_inj {n d d' r r' : ℕ} (hr : r < n) (hr' : r' < n)
    (h : d * n + r = d' * n + r') : d = d' ∧ r = r' := by
  have hd : d = d' := by
    have h1 : (d * n + r) / n = d := by
      rw [Nat.mul_comm, Nat.mul_add_div (by omega), Nat.div_eq_of_lt hr, Nat.add_zero]
    have h2 : (d' * n + r') / n = d' := by
      rw [Nat.mul_comm, Nat.mul_add_div (by omega), Nat.div_eq_of_lt hr', Nat.add_zero]
    rw [← h1, ← h2, h]
  subst hd
  exact ⟨rfl, by omega⟩

/-- A number with a smaller leading digit is smaller. -/
theorem digits_lt {n d d' r : ℕ} (hr : r < n) (h : d < d') : d * n + r < d' * n := by
  have hnext : (d + 1) * n ≤ d' * n := Nat.mul_le_mul_right n h
  rw [Nat.succ_mul] at hnext
  omega

theorem isLeast_of_digits {n : ℕ} {S : Set ℕ} {d r : ℕ} (hn : 0 < n)
    (hd : ∀ d', (fibre n S d').Nonempty → d ≤ d') (hr : IsLeast (fibre n S d) r) :
    IsLeast S (d * n + r) := by
  refine ⟨hr.1.2, fun x hx => ?_⟩
  have hf := mem_fibre_div_mod hn hx
  have hdx := hd (x / n) ⟨_, hf⟩
  have hsplit := Nat.div_add_mod' x n
  rcases Nat.eq_or_lt_of_le hdx with h | h
  · rw [← h] at hf hsplit
    have := hr.2 hf
    omega
  · have hlt := digits_lt hr.1.1 h
    omega

theorem isGreatest_of_digits {n : ℕ} {S : Set ℕ} {d r : ℕ} (hn : 0 < n)
    (hd : ∀ d', (fibre n S d').Nonempty → d' ≤ d) (hr : IsGreatest (fibre n S d) r) :
    IsGreatest S (d * n + r) := by
  refine ⟨hr.1.2, fun x hx => ?_⟩
  have hf := mem_fibre_div_mod hn hx
  have hdx := hd (x / n) ⟨_, hf⟩
  have hsplit := Nat.div_add_mod' x n
  rcases Nat.eq_or_lt_of_le hdx with h | h
  · rw [h] at hf hsplit
    have := hr.2 hf
    omega
  · have hlt := digits_lt hf.1 h
    omega

/-! ## Joining digits by shifts -/

/-- A shift makes room for the low digits, so that `or` adds them. -/
theorem toNat_shiftLeft_or {w k : ℕ} {x y : BitVec w} (hx : x.toNat * 2 ^ k < 2 ^ w)
    (hy : y.toNat < 2 ^ k) : (x <<< k ||| y).toNat = x.toNat * 2 ^ k + y.toNat := by
  rw [BitVec.toNat_or, BitVec.toNat_shiftLeft, Nat.shiftLeft_eq, Nat.mod_eq_of_lt hx,
    ← Nat.shiftLeft_eq, ← Nat.shiftLeft_add_eq_or_of_lt hy, Nat.shiftLeft_eq]

end Basis
