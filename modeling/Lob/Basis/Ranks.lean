import Mathlib.Data.List.Basic
import Mathlib.Data.List.Count
import Mathlib.Data.Rat.Floor
import Mathlib.Tactic.Common
import Mathlib.Tactic.FieldSimp
import Mathlib.Tactic.Linarith
import Mathlib.Tactic.Positivity

/-!
# Ranks

In a sorted list the elements with a property that is closed downwards come first, so that the `k`-th
smallest element has it exactly if `k` elements or more have it. The least rank that a share of the
elements reaches is a rounded up quotient.
-/

namespace Basis

variable {α : Type} {p : α → Bool} {l : List α}

/-! ## Sorted lists -/

theorem countP_eq_zero_of_head {a : α} (h : (a :: l).Pairwise fun x y => p y = true → p x = true)
    (ha : p a = false) : (a :: l).countP p = 0 := by
  rw [List.countP_eq_zero]
  intro x hx hp
  rcases List.mem_cons.mp hx with rfl | hx
  · rw [ha] at hp
    cases hp
  · have hpa := List.rel_of_pairwise_cons h hx hp
    rw [ha] at hpa
    cases hpa

/-- **Ranks.** An element has the property exactly if it is among the first that have it. -/
theorem lt_countP_iff (h : l.Pairwise fun x y => p y = true → p x = true) {k : ℕ}
    (hk : k < l.length) : k < l.countP p ↔ p l[k] = true := by
  induction l generalizing k with
  | nil => cases hk
  | cons a l ih =>
    cases hpa : p a with
    | false =>
      have hnone := countP_eq_zero_of_head h hpa
      rw [hnone]
      refine iff_of_false (Nat.not_lt_zero k) fun hp => ?_
      exact List.countP_eq_zero.mp hnone _ (List.getElem_mem hk) hp
    | true =>
      rw [List.countP_cons_of_pos hpa]
      cases k with
      | zero => exact iff_of_true (Nat.succ_pos _) hpa
      | succ k =>
        rw [Nat.add_lt_add_iff_right]
        exact ih h.of_cons (Nat.lt_of_succ_lt_succ hk)

/-! ## The first element -/

/-- `x` is one of the elements and before each of them. -/
def IsFirst (r : α → α → Prop) (l : List α) (x : α) : Prop := x ∈ l ∧ ∀ y ∈ l, r x y

section IsFirst

variable {r : α → α → Prop} {x y a : α}

theorem isFirst_singleton (hrefl : ∀ x, r x x) (a : α) : IsFirst r [a] a := by
  refine ⟨List.mem_singleton_self a, fun y hy => ?_⟩
  rw [List.mem_singleton.mp hy]
  exact hrefl a

theorem IsFirst.eq (h : IsFirst r l x) (h' : IsFirst r l y) (hanti : ∀ x y, r x y → r y x → x = y) :
    x = y := hanti x y (h.2 y h'.1) (h'.2 x h.1)

/-- One more element takes the place of the first, unless it is after it. -/
theorem IsFirst.concat (h : IsFirst r l x) (hrefl : ∀ x, r x x)
    (htrans : ∀ x y z, r x y → r y z → r x z) {c : Prop} [Decidable c] (htakes : c → r a x)
    (hstays : ¬c → r x a) : IsFirst r (l ++ [a]) (if c then a else x) := by
  by_cases hc : c
  · rw [if_pos hc]
    refine ⟨by simp, fun y hy => ?_⟩
    rcases List.mem_append.mp hy with hold | hnew
    · exact htrans a x y (htakes hc) (h.2 y hold)
    · rw [List.mem_singleton.mp hnew]
      exact hrefl a
  · rw [if_neg hc]
    refine ⟨List.mem_append_left _ h.1, fun y hy => ?_⟩
    rcases List.mem_append.mp hy with hold | hnew
    · exact h.2 y hold
    · rw [List.mem_singleton.mp hnew]
      exact hstays hc

end IsFirst

/-! ## The k-th smallest element -/

section KthSmallest

variable [Inhabited α] {le : α → α → Bool}

/-- The `k`-th smallest element, counted from one. -/
def kthSmallest (le : α → α → Bool) (l : List α) (k : ℕ) : α :=
  (l.mergeSort le).getD (k - 1) default

variable {j k : ℕ}

theorem getElem?_mergeSort (le : α → α → Bool) (hpos : 0 < k) (hk : k ≤ l.length) :
    (l.mergeSort le)[k - 1]? = some (kthSmallest le l k) := by
  have hindex : k - 1 < (l.mergeSort le).length := by
    rw [List.length_mergeSort]
    omega
  unfold kthSmallest
  rw [← List.getElem_eq_getD (h := hindex), List.getElem?_eq_getElem]

/-- **The k-th smallest.** It has a property that is closed downwards exactly if `k` elements have. -/
theorem le_countP_iff (htrans : ∀ x y z, le x y = true → le y z = true → le x z = true)
    (htotal : ∀ x y, (le x y || le y x) = true)
    (hdown : ∀ x y, le x y = true → p y = true → p x = true) (hpos : 0 < k)
    (hk : k ≤ l.length) : k ≤ l.countP p ↔ p (kthSmallest le l k) = true := by
  have hsorted : (l.mergeSort le).Pairwise fun x y => p y = true → p x = true :=
    (List.pairwise_mergeSort htrans htotal l).imp fun {x y} => hdown x y
  obtain ⟨hindex, hkth⟩ := List.getElem?_eq_some_iff.mp (getElem?_mergeSort le hpos hk)
  rw [← hkth, ← lt_countP_iff hsorted hindex, (List.mergeSort_perm l le).countP_eq]
  omega

theorem kthSmallest_mem (le : α → α → Bool) (hpos : 0 < k) (hk : k ≤ l.length) :
    kthSmallest le l k ∈ l := by
  rw [← (List.mergeSort_perm l le).mem_iff]
  exact List.mem_of_getElem? (getElem?_mergeSort le hpos hk)

theorem exists_kthSmallest (le : α → α → Bool) {x : α} (hx : x ∈ l) :
    ∃ k, 0 < k ∧ k ≤ l.length ∧ kthSmallest le l k = x := by
  rw [← (List.mergeSort_perm l le).mem_iff] at hx
  obtain ⟨i, hi⟩ := List.mem_iff_getElem?.mp hx
  have hlen : i + 1 ≤ l.length := by
    rw [← (List.mergeSort_perm l le).length_eq]
    exact (List.getElem?_eq_some_iff.mp hi).1
  have hkth := getElem?_mergeSort le (Nat.succ_pos i) hlen
  rw [Nat.succ_sub_one, hi] at hkth
  exact ⟨i + 1, Nat.succ_pos i, hlen, (Option.some.inj hkth).symm⟩

theorem kthSmallest_mono (htrans : ∀ x y z, le x y = true → le y z = true → le x z = true)
    (htotal : ∀ x y, (le x y || le y x) = true) (hpos : 0 < j) (hjk : j ≤ k) (hk : k ≤ l.length) :
    le (kthSmallest le l j) (kthSmallest le l k) = true := by
  rcases hjk.eq_or_lt with rfl | hlt
  · simpa using htotal (kthSmallest le l j) (kthSmallest le l j)
  · obtain ⟨hj', heqj⟩ :=
      List.getElem?_eq_some_iff.mp (getElem?_mergeSort le hpos (hjk.trans hk))
    obtain ⟨hk', heqk⟩ :=
      List.getElem?_eq_some_iff.mp (getElem?_mergeSort le (hpos.trans_le hjk) hk)
    rw [← heqj, ← heqk]
    exact List.pairwise_iff_getElem.mp (List.pairwise_mergeSort htrans htotal l) _ _ hj' hk'
      (by omega)

/-- The smallest element is the first in the order, the largest the first in its reverse. -/
theorem isFirst_kthSmallest (htrans : ∀ x y z, le x y = true → le y z = true → le x z = true)
    (htotal : ∀ x y, (le x y || le y x) = true) (hne : l ≠ []) :
    IsFirst (fun x y => le x y = true) l (kthSmallest le l 1) ∧
      IsFirst (fun x y => le y x = true) l (kthSmallest le l l.length) := by
  have hlen : 0 < l.length := List.length_pos_iff.mpr hne
  refine ⟨⟨kthSmallest_mem le Nat.zero_lt_one hlen, fun x hx => ?_⟩,
    ⟨kthSmallest_mem le hlen le_rfl, fun x hx => ?_⟩⟩
  all_goals obtain ⟨k, hpos, hk, rfl⟩ := exists_kthSmallest le hx
  · exact kthSmallest_mono htrans htotal Nat.zero_lt_one hpos hk
  · exact kthSmallest_mono htrans htotal hpos hk le_rfl

end KthSmallest

/-! ## Shares of a number -/

/-- All but `a / b` of `n`, rounded up. -/
theorem ceil_sub_mul_div {a b : ℕ} (n : ℕ) (hb : 0 < b) (hab : a ≤ b) :
    ⌈((b : ℚ) - a) / b * n⌉₊ = n - n * a / b := by
  have hbq : (0 : ℚ) < b := Nat.cast_pos.mpr hb
  have hle : n * a / b ≤ n := by
    refine Nat.div_le_of_le_mul ?_
    rw [Nat.mul_comm]
    exact Nat.mul_le_mul_right n hab
  have hsplit : (n * a : ℚ) = b * (n * a / b : ℕ) + (n * a % b : ℕ) := by
    exact_mod_cast (Nat.div_add_mod (n * a) b).symm
  -- What is rounded up is the result less a proper fraction.
  have hvalue : ((b : ℚ) - a) / b * n = (n - n * a / b : ℕ) - (n * a % b : ℕ) / b := by
    rw [Nat.cast_sub hle]
    field_simp
    linarith
  have hnonneg : (0 : ℚ) ≤ (n * a % b : ℕ) / b := by positivity
  have hproper : ((n * a % b : ℕ) : ℚ) / b < 1 := by
    rw [div_lt_one hbq]
    exact_mod_cast Nat.mod_lt _ hb
  rw [hvalue]
  refine le_antisymm ?_ ?_
  · rw [Nat.ceil_le]
    linarith
  · by_contra hlt
    have hnext : ⌈((n - n * a / b : ℕ) : ℚ) - (n * a % b : ℕ) / b⌉₊ + 1 ≤ n - n * a / b :=
      Nat.lt_of_not_le hlt
    have hceil := Nat.le_ceil (((n - n * a / b : ℕ) : ℚ) - (n * a % b : ℕ) / b)
    have hcast := (Nat.cast_le (α := ℚ)).mpr hnext
    rw [Nat.cast_add, Nat.cast_one] at hcast
    linarith

end Basis
