import Mathlib.Data.List.Basic
import Mathlib.Algebra.BigOperators.Group.List.Basic
import Mathlib.Algebra.GroupWithZero.Nat
import Mathlib.Tactic.Common

/-!
# Taking greedily from a list

Each item of a list holds an amount. `greedy` walks the list and takes from each item what it can,
until `n` is taken or the list ends; `leftover` is the list afterwards, where the last item may have
shrunk and the items taken in full are gone.
-/

namespace Basis

variable {α : Type} (amount : α → ℕ) (shrink : α → ℕ → α)

/-- What is taken from each item. -/
def greedy : List α → ℕ → List (α × ℕ)
  | [], _ => []
  | a :: l, n => if n = 0 then [] else (a, min n (amount a)) :: greedy l (n - amount a)

/-- The items afterwards. -/
def leftover : List α → ℕ → List α
  | [], _ => []
  | a :: l, n =>
    if n = 0 then a :: l
    else if amount a ≤ n then leftover l (n - amount a)
    else shrink a n :: l

theorem greedy_zero (l : List α) : greedy amount l 0 = [] := by
  cases l <;> simp [greedy]

theorem leftover_zero (l : List α) : leftover amount shrink l 0 = l := by
  cases l <;> simp [leftover]

variable {amount} {shrink} {a : α} {l : List α} {n : ℕ}

/-- The first item is taken in full. -/
theorem greedy_cons_of_le (hn : n ≠ 0) (h : amount a ≤ n) :
    greedy amount (a :: l) n = (a, amount a) :: greedy amount l (n - amount a) := by
  rw [greedy, if_neg hn, Nat.min_eq_right h]

/-- The first item is enough. -/
theorem greedy_cons_of_lt (hn : n ≠ 0) (h : n < amount a) :
    greedy amount (a :: l) n = [(a, n)] := by
  have hle := Nat.le_of_lt h
  rw [greedy, if_neg hn, Nat.min_eq_left hle, Nat.sub_eq_zero_of_le hle, greedy_zero]

theorem leftover_cons_of_le (hn : n ≠ 0) (h : amount a ≤ n) :
    leftover amount shrink (a :: l) n = leftover amount shrink l (n - amount a) := by
  rw [leftover, if_neg hn, if_pos h]

theorem leftover_cons_of_lt (hn : n ≠ 0) (h : n < amount a) :
    leftover amount shrink (a :: l) n = shrink a n :: l := by
  rw [leftover, if_neg hn, if_neg (by omega)]

/-- The items come one after the other. -/
theorem map_fst_greedy (l : List α) (n : ℕ) : ((greedy amount l n).map Prod.fst).Sublist l := by
  induction l generalizing n with
  | nil => exact List.Sublist.refl []
  | cons a l ih =>
    rw [greedy]
    split_ifs
    · exact List.nil_sublist _
    · exact (ih _).cons_cons a

/-- All there is, or all that is asked for. -/
theorem sum_greedy (l : List α) (n : ℕ) :
    ((greedy amount l n).map Prod.snd).sum = min n (l.map amount).sum := by
  induction l generalizing n with
  | nil => simp [greedy]
  | cons a l ih =>
    by_cases hn : n = 0
    · rw [hn, greedy_zero]; simp
    · rw [greedy, if_neg hn, List.map_cons, List.sum_cons, ih, List.map_cons, List.sum_cons]
      omega

/-- Asking for what is taken takes the same. -/
theorem greedy_sum_greedy (hpos : ∀ a ∈ l, amount a ≠ 0) :
    greedy amount l ((greedy amount l n).map Prod.snd).sum = greedy amount l n := by
  induction l generalizing n with
  | nil => rfl
  | cons a l ih =>
    by_cases hn : n = 0
    · rw [hn, greedy_zero]
      exact greedy_zero _ _
    have ha := hpos a List.mem_cons_self
    by_cases hle : amount a ≤ n
    · rw [greedy_cons_of_le hn hle, List.map_cons, List.sum_cons,
        greedy_cons_of_le (by omega) (by omega), Nat.add_sub_cancel_left,
        ih fun b hb => hpos b (List.mem_cons_of_mem a hb)]
    · have hlt : n < amount a := Nat.lt_of_not_le hle
      rw [greedy_cons_of_lt hn hlt]
      exact greedy_cons_of_lt hn hlt

/-- Nothing is left over where more is asked for than there is. -/
theorem leftover_eq_nil (h : (l.map amount).sum < n) : leftover amount shrink l n = [] := by
  induction l generalizing n with
  | nil => rfl
  | cons a l ih =>
    rw [List.map_cons, List.sum_cons] at h
    rw [leftover_cons_of_le (by omega) (by omega)]
    exact ih (by omega)

/-! ## Two lists with a seam -/

section Seam

variable {β γ : Type}

/-- One list after the other; the last element of the first and the first of the second become one
where they are the same. -/
def joinSeam (same : β → β → Bool) (merge : β → β → β) : List β → List β → List β
  | [], l' => l'
  | [b], c :: l' => if same b c then merge b c :: l' else b :: c :: l'
  | b :: l, l' => b :: joinSeam same merge l l'

variable {same : β → β → Bool} {merge : β → β → β} {b c : β} {l l' : List β}

theorem joinSeam_same (h : same b c = true) :
    joinSeam same merge [b] (c :: l') = merge b c :: l' := by
  rw [joinSeam, if_pos h]

theorem joinSeam_cons (h : l = [] → ∀ c ∈ l', same b c = false) :
    joinSeam same merge (b :: l) l' = b :: joinSeam same merge l l' := by
  cases l with
  | cons b' l => rfl
  | nil =>
    cases l' with
    | nil => rfl
    | cons c l' =>
      have hne := h rfl c List.mem_cons_self
      show (if same b c = true then _ else b :: c :: l') = _
      rw [if_neg (by rw [hne]; exact Bool.false_ne_true)]
      rfl

theorem map_joinSeam {same' : γ → γ → Bool} {merge' : γ → γ → γ} (f : β → γ)
    (hsame : ∀ b c, same' (f b) (f c) = same b c) (hmerge : ∀ b c, f (merge b c) = merge' (f b) (f c))
    (l l' : List β) :
    (joinSeam same merge l l').map f = joinSeam same' merge' (l.map f) (l'.map f) := by
  induction l with
  | nil => rfl
  | cons b l ih =>
    cases l with
    | cons b' l => exact congrArg (f b :: ·) ih
    | nil =>
      cases l' with
      | nil => rfl
      | cons c l' =>
        rw [List.map_cons, List.map_nil, List.map_cons, joinSeam, joinSeam, hsame]
        split_ifs
        · rw [List.map_cons, hmerge]
        · rfl

theorem sum_joinSeam {f : β → ℕ} (hmerge : ∀ b c, f (merge b c) = f b + f c) (l l' : List β) :
    ((joinSeam same merge l l').map f).sum = (l.map f).sum + (l'.map f).sum := by
  induction l with
  | nil => exact (Nat.zero_add _).symm
  | cons b l ih =>
    cases l with
    | cons b' l =>
      show f b + ((joinSeam same merge (b' :: l) l').map f).sum =
        f b + ((b' :: l).map f).sum + (l'.map f).sum
      rw [ih, Nat.add_assoc]
    | nil =>
      cases l' with
      | nil => rfl
      | cons c l' =>
        rw [joinSeam]
        split_ifs
        · rw [List.map_cons, List.sum_cons, hmerge, List.map_cons, List.sum_cons]
          simp [Nat.add_assoc]
        · simp

end Seam

/-! ## Taking in two parts -/

section Parts

variable {κ : Type} {key : α → κ}

theorem fst_mem_of_mem_greedy {x : α × ℕ} (h : x ∈ greedy amount l n) : x.1 ∈ l := by
  induction l generalizing n with
  | nil => cases h
  | cons a l ih =>
    rw [greedy] at h
    split_ifs at h
    · cases h
    · rcases List.mem_cons.mp h with rfl | hrest
      · exact List.mem_cons_self
      · exact List.mem_cons_of_mem a (ih hrest)

theorem key_mem_of_mem_leftover (hkey : ∀ a n, key (shrink a n) = key a) {b : α}
    (h : b ∈ leftover amount shrink l n) : key b ∈ l.map key := by
  induction l generalizing n with
  | nil => cases h
  | cons a l ih =>
    rw [leftover] at h
    rw [List.map_cons]
    split_ifs at h
    · exact List.mem_map_of_mem h
    · exact List.mem_cons_of_mem _ (ih h)
    · rcases List.mem_cons.mp h with rfl | hrest
      · rw [hkey]
        exact List.mem_cons_self
      · exact List.mem_cons_of_mem _ (List.mem_map_of_mem hrest)

/-- Two takings from one item are one. -/
def mergeTaken (x y : α × ℕ) : α × ℕ := (x.1, x.2 + y.2)

def sameItem [DecidableEq κ] (key : α → κ) (x y : α × ℕ) : Bool := key x.1 = key y.1

/-- **Taking in two parts** is taking at once, but for the item at which the parts meet. -/
theorem greedy_add [DecidableEq κ] (hkey : ∀ a n, key (shrink a n) = key a)
    (hamount : ∀ a n, n < amount a → amount (shrink a n) = amount a - n) (m n : ℕ) {l : List α}
    (hnodup : (l.map key).Nodup) : greedy amount l (m + n) =
      joinSeam (sameItem key) mergeTaken (greedy amount l m)
        (greedy amount (leftover amount shrink l m) n) := by
  induction l generalizing m with
  | nil => rfl
  | cons a l ih =>
    by_cases hm : m = 0
    · rw [hm, Nat.zero_add, greedy_zero, leftover_zero]
      rfl
    rw [List.map_cons, List.nodup_cons] at hnodup
    by_cases hle : amount a ≤ m
    · -- The first part takes the item in full, so that the second one takes of others.
      rw [greedy_cons_of_le hm hle, leftover_cons_of_le hm hle, greedy_cons_of_le (by omega) (by omega),
        Nat.sub_add_comm hle, ih _ hnodup.2, joinSeam_cons]
      intro _ y hy
      refine decide_eq_false fun heq => hnodup.1 ?_
      rw [show key a = key y.1 from heq]
      exact key_mem_of_mem_leftover hkey (fst_mem_of_mem_greedy hy)
    · have hlt : m < amount a := Nat.lt_of_not_le hle
      rw [greedy_cons_of_lt hm hlt, leftover_cons_of_lt hm hlt]
      by_cases hn : n = 0
      · rw [hn, greedy_zero, Nat.add_zero, greedy_cons_of_lt hm hlt]
        rfl
      have hrest : amount (shrink a m) = amount a - m := hamount a m hlt
      have hsame (k k' : ℕ) : sameItem key (a, k) (shrink a m, k') = true :=
        decide_eq_true (hkey a m).symm
      by_cases hmore : amount a ≤ m + n
      · rw [greedy_cons_of_le (by omega) hmore, greedy_cons_of_le hn (by omega),
          joinSeam_same (hsame _ _), hrest]
        unfold mergeTaken
        rw [show m + (amount a - m) = amount a by omega,
          show n - (amount a - m) = m + n - amount a by omega]
      · rw [greedy_cons_of_lt (by omega) (by omega), greedy_cons_of_lt hn (by omega),
          joinSeam_same (hsame _ _)]
        rfl

end Parts

end Basis
