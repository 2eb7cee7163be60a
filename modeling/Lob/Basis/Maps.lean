import Mathlib.Data.Finmap
import Mathlib.Algebra.Order.BigOperators.Group.Finset
import Mathlib.Tactic.Common

/-!
# Finite maps

Maps with values of one type, over `Finmap`: lookups after an insertion or an erasure, the number of
entries, and the total of a measure over the values.
-/

namespace Basis

variable {κ : Type} [DecidableEq κ] {ν : Type}

/-- Finite maps with values of one type. -/
abbrev Map (κ ν : Type) := Finmap (fun _ : κ => ν)

theorem lookup_insert_ite (k k' : κ) (v : ν) (m : Map κ ν) :
    (m.insert k v).lookup k' = if k' = k then some v else m.lookup k' := by
  split_ifs with h
  · subst h; exact Finmap.lookup_insert m
  · exact Finmap.lookup_insert_of_ne m h

theorem lookup_erase_ite (k k' : κ) (m : Map κ ν) :
    (m.erase k).lookup k' = if k' = k then none else m.lookup k' := by
  split_ifs with h
  · subst h; exact Finmap.lookup_erase _ m
  · exact Finmap.lookup_erase_ne h

/-- Storing what is there changes nothing. -/
theorem insert_self {m : Map κ ν} {k : κ} {v : ν} (h : m.lookup k = some v) : m.insert k v = m := by
  apply Finmap.ext_lookup
  intro k'
  rw [lookup_insert_ite]
  split_ifs with e
  · rw [e, h]
  · rfl

theorem mem_keys_iff {m : Map κ ν} {k : κ} : k ∈ m.keys ↔ (m.lookup k).isSome := by
  rw [Finmap.mem_keys, ← Finmap.lookup_isSome]

theorem keys_insert (m : Map κ ν) (k : κ) (v : ν) : (m.insert k v).keys = insert k m.keys := by
  ext k'
  rw [Finset.mem_insert, mem_keys_iff, mem_keys_iff, lookup_insert_ite]
  split_ifs with e <;> simp [e]

/-- The number of entries, `size()` of a C++ map. -/
def size (m : Map κ ν) : ℕ := m.keys.card

theorem size_congr {ν' : Type} {m : Map κ ν} {m' : Map κ ν'}
    (h : ∀ k, (m.lookup k).isSome = (m'.lookup k).isSome) : size m = size m' := by
  unfold size
  congr 1
  ext k
  rw [mem_keys_iff, mem_keys_iff, h]

theorem size_insert_new {m : Map κ ν} {k : κ} (v : ν) (h : m.lookup k = none) :
    size (m.insert k v) = size m + 1 := by
  unfold size
  rw [keys_insert, Finset.card_insert_of_notMem]
  rw [mem_keys_iff, h]
  simp

theorem size_insert_old {m : Map κ ν} {k : κ} {v₀ : ν} (v : ν) (h : m.lookup k = some v₀) :
    size (m.insert k v) = size m := by
  refine size_congr fun k' => ?_
  rw [lookup_insert_ite]
  split_ifs with e
  · rw [e, h]; rfl
  · rfl

theorem size_erase {m : Map κ ν} {k : κ} {v : ν} (h : m.lookup k = some v) :
    size (m.erase k) + 1 = size m := by
  have hk : k ∈ m.keys := by rw [mem_keys_iff, h]; rfl
  unfold size
  rw [Finmap.keys_erase, Finset.card_erase_add_one hk]

/-! ## Totals -/

/-- The sum of a measure over the values. -/
def total (measure : ν → ℕ) (m : Map κ ν) : ℕ :=
  ∑ k ∈ m.keys, (m.lookup k).elim 0 measure

variable {measure : ν → ℕ} {m : Map κ ν} {k : κ}

/-- A new entry adds its measure. -/
theorem total_insert_new (v : ν) (h : m.lookup k = none) :
    total measure (m.insert k v) = total measure m + measure v := by
  have hk : k ∉ m.keys := by rw [mem_keys_iff, h]; simp
  unfold total
  rw [keys_insert, Finset.sum_insert hk, Finmap.lookup_insert, Option.elim_some, Nat.add_comm]
  congr 1
  refine Finset.sum_congr rfl fun k' hk' => ?_
  rw [Finmap.lookup_insert_of_ne _ fun e => hk (by rw [← e]; exact hk')]

/-- A replaced entry gives back the measure of the old value. -/
theorem total_insert_old {v₀ : ν} (v : ν) (h : m.lookup k = some v₀) :
    total measure (m.insert k v) + measure v₀ = total measure m + measure v := by
  have hk : k ∈ m.keys := by rw [mem_keys_iff, h]; rfl
  have hkeys : (m.insert k v).keys = m.keys := by rw [keys_insert, Finset.insert_eq_self.mpr hk]
  unfold total
  rw [hkeys, ← Finset.add_sum_erase _ _ hk, ← Finset.add_sum_erase _ _ hk, Finmap.lookup_insert, h,
    Option.elim_some, Option.elim_some]
  have : ∑ k' ∈ m.keys.erase k, ((m.insert k v).lookup k').elim 0 measure =
      ∑ k' ∈ m.keys.erase k, (m.lookup k').elim 0 measure := by
    refine Finset.sum_congr rfl fun k' hk' => ?_
    rw [Finmap.lookup_insert_of_ne _ (Finset.ne_of_mem_erase hk')]
  omega

/-- An erased entry takes its measure away. -/
theorem total_erase {v : ν} (h : m.lookup k = some v) :
    total measure (m.erase k) + measure v = total measure m := by
  have hk : k ∈ m.keys := by rw [mem_keys_iff, h]; rfl
  unfold total
  rw [Finmap.keys_erase, ← Finset.add_sum_erase _ _ hk, h, Option.elim_some, Nat.add_comm]
  congr 1
  refine Finset.sum_congr rfl fun k' hk' => ?_
  rw [Finmap.lookup_erase_ne (Finset.ne_of_mem_erase hk')]

/-- Each entry is part of the total. -/
theorem le_total {v : ν} (h : m.lookup k = some v) : measure v ≤ total measure m := by
  have hk : k ∈ m.keys := by rw [mem_keys_iff, h]; rfl
  unfold total
  rw [← Finset.add_sum_erase _ _ hk, h]
  exact Nat.le_add_right _ _

/-- Where no other key is in use the total is one measure. -/
theorem total_of_only (h : ∀ k', k' ≠ k → m.lookup k' = none) :
    total measure m = (m.lookup k).elim 0 measure := by
  unfold total
  refine Finset.sum_eq_single k (fun k' _ hne => ?_) fun hk => ?_
  · rw [h k' hne]
    rfl
  · rw [mem_keys_iff, Bool.not_eq_true, Option.isSome_eq_false_iff, Option.isNone_iff_eq_none] at hk
    rw [hk]
    rfl

/-- Two maps with the same keys and measures have the same total. -/
theorem total_congr {ν' : Type} {measure' : ν' → ℕ} {m' : Map κ ν'}
    (h : ∀ k, (m.lookup k).map measure = (m'.lookup k).map measure') :
    total measure m = total measure' m' := by
  have hsome : ∀ k, (m.lookup k).isSome = (m'.lookup k).isSome := by
    intro k
    have := congrArg Option.isSome (h k)
    rwa [Option.isSome_map, Option.isSome_map] at this
  unfold total
  have hkeys : m.keys = m'.keys := by
    ext k
    rw [mem_keys_iff, mem_keys_iff, hsome]
  rw [hkeys]
  refine Finset.sum_congr rfl fun k _ => ?_
  have hk := h k
  cases h1 : m.lookup k with
  | none =>
    rw [h1] at hk
    cases h2 : m'.lookup k with
    | none => rfl
    | some v => rw [h2] at hk; cases hk
  | some v =>
    rw [h1] at hk
    cases h2 : m'.lookup k with
    | none => rw [h2] at hk; cases hk
    | some v' => rw [h2] at hk; exact Option.some.inj hk

/-- The total over any keys that include those in use. -/
theorem total_eq_sum {s : Finset κ} (h : m.keys ⊆ s) :
    total measure m = ∑ k ∈ s, (m.lookup k).elim 0 measure := by
  refine Finset.sum_subset h fun k _ hk => ?_
  rw [mem_keys_iff, Bool.not_eq_true, Option.isSome_eq_false_iff, Option.isNone_iff_eq_none] at hk
  rw [hk]
  rfl

/-- A map with no greater measures has no greater total. -/
theorem total_le_total {m' : Map κ ν}
    (h : ∀ k, (m'.lookup k).elim 0 measure ≤ (m.lookup k).elim 0 measure) :
    total measure m' ≤ total measure m := by
  rw [total_eq_sum (Finset.subset_union_left : m'.keys ⊆ m'.keys ∪ m.keys),
    total_eq_sum (Finset.subset_union_right : m.keys ⊆ m'.keys ∪ m.keys)]
  exact Finset.sum_le_sum fun k _ => h k

/-- A map with no other keys is no greater. -/
theorem size_le_size {ν' : Type} {m : Map κ ν} {m' : Map κ ν'}
    (h : ∀ k, (m'.lookup k).isSome → (m.lookup k).isSome) : size m' ≤ size m := by
  refine Finset.card_le_card fun k hk => ?_
  rw [mem_keys_iff] at hk ⊢
  exact h k hk

end Basis
