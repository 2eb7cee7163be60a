import Mathlib.Logic.Function.Basic
import Mathlib.Data.Nat.ModEq
import Mathlib.Algebra.Order.Ring.Nat

/-!
# A window on a circle of slots

Position `n` of an unbounded sequence is kept in slot `n % size`. A window of at most `size`
consecutive positions fills as many different slots; it grows at its end and shrinks at its front.
-/

namespace Basis

/-- The slots hold `values`, the first of them at position `first`, and nothing else. -/
structure Holds {α : Type} (size : ℕ) (slots : ℕ → Option α) (first : ℕ) (values : List α) : Prop where
  fits : values.length ≤ size
  slot : ∀ i a, slots i = some a ↔ ∃ j, values[j]? = some a ∧ (first + j) % size = i

namespace Holds

variable {α : Type} {size : ℕ} {slots : ℕ → Option α} {first : ℕ} {values : List α} {a : α}

/-- Fewer than `size` positions apart, slots are different. -/
theorem position_unique {j j' : ℕ} (hj : j < size) (hj' : j' < size)
    (h : (first + j) % size = (first + j') % size) : j = j' := by
  have hmod : j % size = j' % size := Nat.ModEq.add_left_cancel' first h
  rwa [Nat.mod_eq_of_lt hj, Nat.mod_eq_of_lt hj'] at hmod

theorem nil : Holds size (fun _ => (none : Option α)) first [] where
  fits := Nat.zero_le _
  slot i a := by
    constructor
    · intro h
      cases h
    · rintro ⟨j, hj, _⟩
      cases hj

theorem slots_eq_none (h : Holds size slots first []) (i : ℕ) : slots i = none := by
  cases hi : slots i with
  | none => rfl
  | some a =>
    obtain ⟨j, hj, _⟩ := (h.slot i a).mp hi
    cases hj

theorem lt_size (h : Holds size slots first values) {i : ℕ} (hi : slots i = some a) : i < size := by
  obtain ⟨j, hj, rfl⟩ := (h.slot i a).mp hi
  obtain ⟨hlt, _⟩ := List.getElem?_eq_some_iff.mp hj
  exact Nat.mod_lt _ (by have := h.fits; omega)

theorem front (h : Holds size slots first (a :: values)) : slots (first % size) = some a :=
  (h.slot _ a).mpr ⟨0, rfl, rfl⟩

/-- The slot at the end of a window that can grow is free. -/
theorem free (h : Holds size slots first values) (room : values.length < size) :
    slots ((first + values.length) % size) = none := by
  cases hs : slots ((first + values.length) % size) with
  | none => rfl
  | some a =>
    obtain ⟨j, hj, hmod⟩ := (h.slot _ a).mp hs
    obtain ⟨hlt, _⟩ := List.getElem?_eq_some_iff.mp hj
    have := position_unique (by omega) room hmod
    omega

theorem push (h : Holds size slots first values) (room : values.length < size) (a : α) :
    Holds size (Function.update slots ((first + values.length) % size) (some a)) first
      (values ++ [a]) where
  fits := by
    rw [List.length_append]
    exact room
  slot i b := by
    by_cases hi : i = (first + values.length) % size
    · subst hi
      rw [Function.update_self]
      constructor
      · rintro ⟨⟩
        exact ⟨values.length, by simp, rfl⟩
      · rintro ⟨j, hj, hmod⟩
        obtain ⟨hlt, hget⟩ := List.getElem?_eq_some_iff.mp hj
        rw [List.length_append, List.length_singleton] at hlt
        have := position_unique (by omega) room hmod
        subst this
        rw [← hget]
        simp
    · rw [Function.update_of_ne hi, h.slot]
      constructor
      · rintro ⟨j, hj, hmod⟩
        obtain ⟨hlt, _⟩ := List.getElem?_eq_some_iff.mp hj
        exact ⟨j, by rw [List.getElem?_append_left hlt, hj], hmod⟩
      · rintro ⟨j, hj, hmod⟩
        by_cases hlt : j < values.length
        · exact ⟨j, by rwa [List.getElem?_append_left hlt] at hj, hmod⟩
        · obtain ⟨hle, _⟩ := List.getElem?_eq_some_iff.mp hj
          rw [List.length_append, List.length_singleton] at hle
          have : j = values.length := by omega
          subst this
          exact absurd hmod.symm hi

theorem pop (h : Holds size slots first (a :: values)) :
    Holds size (Function.update slots (first % size) none) (first + 1) values where
  fits := by
    have := h.fits
    rw [List.length_cons] at this
    omega
  slot i b := by
    have hfits : values.length + 1 ≤ size := h.fits
    by_cases hi : i = first % size
    · subst hi
      rw [Function.update_self]
      constructor
      · intro hb
        cases hb
      · rintro ⟨j, hj, hmod⟩
        obtain ⟨hlt, _⟩ := List.getElem?_eq_some_iff.mp hj
        have hlap : (first + (j + 1)) % size = (first + 0) % size := by
          show _ = first % size
          rw [← hmod]
          congr 1
          omega
        have := position_unique (by omega) (by omega) hlap
        omega
    · rw [Function.update_of_ne hi, h.slot]
      constructor
      · rintro ⟨j, hj, hmod⟩
        cases j with
        | zero => exact absurd hmod.symm hi
        | succ j => exact ⟨j, hj, by rw [← hmod]; congr 1; omega⟩
      · rintro ⟨j, hj, hmod⟩
        exact ⟨j + 1, hj, by rw [← hmod]; congr 1; omega⟩

end Holds

end Basis
