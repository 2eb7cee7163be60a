import Mathlib.Data.List.Basic
import Mathlib.Tactic.Common

/-!
# Doubly linked lists

The links of a heap of cells are two functions, `prev` and `next`. `Linked prev next l` says that
the cells of `l` are linked in the order of `l`: wherever `l` is cut at a cell, its `prev` is the
last cell before it and its `next` the first cell after it. Appending at the tail and unlinking a
cell rewrite at most three links.
-/

namespace Basis

variable {π : Type}

def Linked (prev next : π → Option π) (l : List π) : Prop :=
  ∀ l₁ x l₂, l = l₁ ++ x :: l₂ → prev x = l₁.getLast? ∧ next x = l₂.head?

section Rules

variable {prev next prev' next' : π → Option π} {l : List π}

theorem linked_nil : Linked prev next [] := by
  intro l₁ x l₂ h
  simp at h

/-- Links are a matter of the cells of the list only. -/
theorem Linked.congr (h : Linked prev next l) (hp : ∀ y ∈ l, prev' y = prev y)
    (hn : ∀ y ∈ l, next' y = next y) : Linked prev' next' l := by
  intro l₁ x l₂ hl
  have hx : x ∈ l := by rw [hl]; simp
  rw [hp x hx, hn x hx]
  exact h l₁ x l₂ hl

theorem Linked.next_getLast (h : Linked prev next l) {t : π} (ht : l.getLast? = some t) :
    next t = none := by
  obtain ⟨l₁, hl⟩ := List.getLast?_eq_some_iff.mp ht
  exact (h l₁ t [] hl).2

theorem Linked.prev_head (h : Linked prev next l) {x : π} (hx : l.head? = some x) :
    prev x = none := by
  obtain ⟨l₂, hl⟩ := List.head?_eq_some_iff.mp hx
  exact (h [] x l₂ hl).1

theorem Linked.prev_of_next (h : Linked prev next l) {x y : π} (hx : x ∈ l)
    (e : next x = some y) : y ∈ l ∧ prev y = some x := by
  obtain ⟨l₁, l₂, rfl⟩ := List.append_of_mem hx
  rw [(h l₁ x l₂ rfl).2] at e
  obtain ⟨l₃, rfl⟩ := List.head?_eq_some_iff.mp e
  exact ⟨by simp, by rw [(h (l₁ ++ [x]) y l₃ (by simp)).1]; simp⟩

theorem Linked.next_of_prev (h : Linked prev next l) {x y : π} (hx : x ∈ l)
    (e : prev x = some y) : y ∈ l ∧ next y = some x := by
  obtain ⟨l₁, l₂, rfl⟩ := List.append_of_mem hx
  rw [(h l₁ x l₂ rfl).1] at e
  obtain ⟨l₃, rfl⟩ := List.getLast?_eq_some_iff.mp e
  exact ⟨by simp, by rw [(h l₃ y (x :: l₂) (by simp)).2]; simp⟩

variable [DecidableEq π]

/-- **Appending.** The new cell points back at the old tail, and the old tail at the new cell. -/
theorem Linked.concat {x : π} (h : Linked prev next l) (hnd : l.Nodup)
    (hp : ∀ y ∈ l, prev' y = prev y)
    (hn : ∀ y ∈ l, next' y = if l.getLast? = some y then some x else next y)
    (hxp : prev' x = l.getLast?) (hxn : next' x = none) : Linked prev' next' (l ++ [x]) := by
  intro l₁ y l₂ hl
  rcases List.eq_nil_or_concat l₂ with rfl | ⟨l₃, z, rfl⟩
  · obtain ⟨rfl, hy⟩ := List.append_inj' hl rfl
    cases hy
    exact ⟨hxp, hxn⟩
  · have hsplit : l ++ [x] = (l₁ ++ y :: l₃) ++ [z] := by rw [hl]; simp
    obtain ⟨rfl, hz⟩ := List.append_inj' hsplit rfl
    cases hz
    have hy : y ∈ l₁ ++ y :: l₃ := by simp
    obtain ⟨h1, h2⟩ := h l₁ y l₃ rfl
    refine ⟨(hp y hy).trans h1, ?_⟩
    rw [hn y hy]
    cases l₃ with
    | nil => simp
    | cons w l₃ =>
      -- the tail lies after `y`, so it is another cell
      have hne : (l₁ ++ y :: w :: l₃).getLast? ≠ some y := by
        intro e
        have hmem : y ∈ w :: l₃ := by
          have : (w :: l₃).getLast? = some y := by simpa using e
          exact List.mem_of_getLast? this
        have := (List.nodup_append.mp hnd).2.1
        exact (List.nodup_cons.mp this).1 hmem
      rw [if_neg hne, h2]
      simp

/-- **Unlinking.** The neighbours of the cell are linked to each other. -/
theorem Linked.unlink {a b : List π} {x : π} (h : Linked prev next (a ++ x :: b))
    (hnd : (a ++ x :: b).Nodup)
    (hp : ∀ y ∈ a ++ b, prev' y = if b.head? = some y then a.getLast? else prev y)
    (hn : ∀ y ∈ a ++ b, next' y = if a.getLast? = some y then b.head? else next y) :
    Linked prev' next' (a ++ b) := by
  intro l₁ y l₂ hl
  have hy : y ∈ a ++ b := by rw [hl]; simp
  rw [hp y hy, hn y hy]
  have hdisj : ∀ z, z ∈ a → z ∉ b := by
    intro z hza hzb
    have := (List.nodup_append.mp hnd).2.2 z hza z (List.mem_cons_of_mem x hzb)
    exact this rfl
  rcases List.append_eq_append_iff.mp hl with ⟨c, rfl, hb⟩ | ⟨c, rfl, hb⟩
  · -- `y` lies in `b`
    have hyb : y ∈ b := by rw [hb]; simp
    have hya : a.getLast? ≠ some y := fun e => hdisj y (List.mem_of_getLast? e) hyb
    obtain ⟨h1, h2⟩ := h (a ++ x :: c) y l₂ (by rw [hb]; simp)
    rw [if_neg hya]
    refine ⟨?_, h2⟩
    cases c with
    | nil => rw [hb]; simp
    | cons w c =>
      have hwy : b.head? ≠ some y := by
        intro e
        rw [hb] at e
        have hw : w = y := by simpa using e
        have hnb : b.Nodup := (List.nodup_cons.mp (List.nodup_append.mp hnd).2.1).2
        rw [hb, hw] at hnb
        simp at hnb
      rw [if_neg hwy, h1]
      simp
  · -- `y` lies in `a`, or heads `b`
    cases c with
    | nil =>
      obtain rfl : b = y :: l₂ := by simpa using hb.symm
      obtain ⟨-, h2⟩ := h (l₁ ++ [x]) y l₂ (by simp)
      have hya : l₁.getLast? ≠ some y :=
        fun e => hdisj y (by simpa using List.mem_of_getLast? e) (by simp)
      simp [hya, h2]
    | cons w c =>
      obtain ⟨rfl, rfl⟩ : y = w ∧ l₂ = c ++ b := by simpa using hb
      have hyb : b.head? ≠ some y := fun e => hdisj y (by simp) (List.mem_of_head? e)
      obtain ⟨h1, h2⟩ := h l₁ y (c ++ x :: b) (by simp)
      rw [if_neg hyb]
      refine ⟨h1, ?_⟩
      cases c with
      | nil => simp
      | cons v c =>
        have hlast : (l₁ ++ y :: v :: c).getLast? ≠ some y := by
          intro e
          have hmem : y ∈ v :: c := by
            have : (v :: c).getLast? = some y := by simpa using e
            exact List.mem_of_getLast? this
          have hna : (l₁ ++ y :: v :: c).Nodup := (List.nodup_append.mp hnd).1
          exact (List.nodup_cons.mp (List.nodup_append.mp hna).2.1).1 hmem
        rw [if_neg hlast, h2]
        simp

/-! ## Walking a list -/

omit [DecidableEq π] in
/-- The cells met by following `next` at most `k` times. -/
def walk (next : π → Option π) : ℕ → Option π → List π
  | 0, _ => []
  | _ + 1, none => []
  | k + 1, some x => x :: walk next k (next x)

omit [DecidableEq π] in
theorem Linked.walk_suffix (h : Linked prev next l) :
    ∀ l₂ l₁, l = l₁ ++ l₂ → walk next l₂.length l₂.head? = l₂ := by
  intro l₂
  induction l₂ with
  | nil => intro l₁ _; rfl
  | cons x l₂ ih =>
    intro l₁ hl
    have hx := (h l₁ x l₂ hl).2
    show x :: walk next l₂.length (next x) = x :: l₂
    rw [hx, ih (l₁ ++ [x]) (by rw [hl]; simp)]

omit [DecidableEq π] in
/-- From the head, following `next` visits the list. -/
theorem Linked.walk_eq (h : Linked prev next l) : walk next l.length l.head? = l :=
  h.walk_suffix l [] rfl

end Rules

end Basis
