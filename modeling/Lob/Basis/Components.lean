import Mathlib.Data.List.Perm.Basic
import Mathlib.Tactic.Common

/-!
# Systems of separate components

A state has a part for every key, and an operation is addressed to one key: it leaves the other parts
alone, and what it returns and makes of its own part depends on that part only. Then the operations of
one key do the same in every interleaving with the others.
-/

namespace Basis

/-- Lists with the same elements of every group, in the same order, are permutations of each other. -/
theorem perm_of_groups {α κ : Type} [DecidableEq κ] (f : α → κ) {l l' : List α}
    (h : ∀ k, (l'.filter fun a => f a = k) = l.filter fun a => f a = k) : l'.Perm l := by
  classical
  rw [List.perm_iff_count]
  intro a
  have hcount : ∀ l : List α, (l.filter fun b => f b = f a).count a = l.count a :=
    fun l => List.count_filter (by simp)
  rw [← hcount l', ← hcount l, h]

/-- An operation without a key may do anything. -/
structure Components (σ ι ρ κ τ : Type) where
  step : σ → ι → ρ × σ
  key : ι → Option κ
  part : κ → σ → τ

namespace Components

variable {σ ι ρ κ τ : Type} [DecidableEq κ] (c : Components σ ι ρ κ τ)

/-- A run: the operations with what they returned, and the last state. -/
def run (s : σ) : List ι → List (ι × ρ) × σ
  | [] => ([], s)
  | i :: l => ((i, (c.step s i).1) :: (run (c.step s i).2 l).1, (run (c.step s i).2 l).2)

/-- The operations of one key. -/
def only (k : κ) (l : List ι) : List ι := l.filter fun i => c.key i = some k

/-- What the operations of one key returned. -/
def onlyRun (k : κ) (l : List (ι × ρ)) : List (ι × ρ) := l.filter fun x => c.key x.1 = some k

/-- The parts are separate, in states that are `Good`. Whether a state is good depends, in states with
the invariant, on its parts: it stays so when the parts of all keys but one are as in `s₀`. -/
structure Separate (Inv Good : σ → Prop) (s₀ : σ) : Prop where
  start : Inv s₀
  keeps : ∀ {s i k}, Inv s → c.key i = some k → Inv (c.step s i).2
  good : ∀ {s s' k}, Good s → Inv s' → c.part k s' = c.part k s →
    (∀ k', k' ≠ k → c.part k' s' = c.part k' s₀) → Good s'
  frame : ∀ {s i k k'}, c.key i = some k → k' ≠ k → c.part k' (c.step s i).2 = c.part k' s
  own : ∀ {s s' i k}, Good s → Good s' → c.key i = some k → c.part k s' = c.part k s →
    (c.step s' i).1 = (c.step s i).1 ∧ c.part k (c.step s' i).2 = c.part k (c.step s i).2

variable {c} {Inv Good : σ → Prop} {s₀ : σ} {k : κ}

/-- **Leaving out the other keys** changes nothing at a key. The induction is on the run; the second
run keeps the parts of the others as they are in `s₀`. -/
theorem Separate.run_only (h : c.Separate Inv Good s₀) (l : List ι)
    (hl : ∀ i ∈ l, (c.key i).isSome) : ∀ {s s'},
      (∀ n, Good (c.run s (l.take n)).2) → Inv s' → c.part k s' = c.part k s →
      (∀ k', k' ≠ k → c.part k' s' = c.part k' s₀) →
      (c.run s' (c.only k l)).1 = c.onlyRun k (c.run s l).1 ∧
        c.part k (c.run s' (c.only k l)).2 = c.part k (c.run s l).2 := by
  induction l with
  | nil => exact fun _ _ hpart _ => ⟨rfl, hpart⟩
  | cons i l ih =>
    intro s s' hs hinv hpart hothers
    have hfirst : Good s := hs 0
    have hrest : ∀ n, Good (c.run (c.step s i).2 (l.take n)).2 := fun n => hs (n + 1)
    have hl' := fun j hj => hl j (List.mem_cons_of_mem _ hj)
    obtain ⟨k₁, hk₁⟩ := Option.isSome_iff_exists.mp (hl i List.mem_cons_self)
    by_cases hk : k₁ = k
    · subst hk
      obtain ⟨hresult, hown⟩ := h.own hfirst (h.good hfirst hinv hpart hothers) hk₁ hpart
      obtain ⟨hrun, hfinal⟩ := ih hl' hrest (h.keeps hinv hk₁) hown
        fun k' hne => (h.frame hk₁ hne).trans (hothers k' hne)
      have honly : c.only k₁ (i :: l) = i :: c.only k₁ l := List.filter_cons_of_pos (by simp [hk₁])
      have hhead : c.onlyRun k₁ (c.run s (i :: l)).1 =
          (i, (c.step s i).1) :: c.onlyRun k₁ (c.run (c.step s i).2 l).1 :=
        List.filter_cons_of_pos (by simp [hk₁])
      rw [honly, hhead, ← hrun, ← hresult]
      exact ⟨rfl, hfinal⟩
    · -- the operation is left out
      obtain ⟨hrun, hfinal⟩ := ih hl' hrest hinv
        (hpart.trans (h.frame hk₁ fun e => hk e.symm).symm) hothers
      have honly : c.only k (i :: l) = c.only k l := List.filter_cons_of_neg (by simp [hk₁, hk])
      have hhead : c.onlyRun k (c.run s (i :: l)).1 = c.onlyRun k (c.run (c.step s i).2 l).1 :=
        List.filter_cons_of_neg (by simp [hk₁, hk])
      rw [honly, hhead]
      exact ⟨hrun, hfinal⟩

omit [DecidableEq κ] in
/-- The operations of other keys leave a part alone. -/
theorem Separate.run_frame (h : c.Separate Inv Good s₀) (l : List ι)
    (hl : ∀ i ∈ l, ∃ k', c.key i = some k' ∧ k' ≠ k) (s : σ) :
    c.part k (c.run s l).2 = c.part k s := by
  induction l generalizing s with
  | nil => rfl
  | cons i l ih =>
    obtain ⟨k', hk', hne⟩ := hl i List.mem_cons_self
    exact (ih (fun j hj => hl j (List.mem_cons_of_mem _ hj)) _).trans (h.frame hk' hne.symm)

/-- Lists with the same elements of every key, in the same order, are permutations of each other. -/
theorem perm_of_onlyRun {l l' : List (ι × ρ)} (hl : ∀ x ∈ l, (c.key x.1).isSome)
    (hl' : ∀ x ∈ l', (c.key x.1).isSome) (h : ∀ k, c.onlyRun k l = c.onlyRun k l') : l.Perm l' := by
  have hnone : ∀ {l : List (ι × ρ)}, (∀ x ∈ l, (c.key x.1).isSome) →
      (l.filter fun x => c.key x.1 = none) = [] := fun hl =>
    List.filter_eq_nil_iff.mpr fun x hx => by simp [Option.isSome_iff_ne_none.mp (hl x hx)]
  refine perm_of_groups (fun x => c.key x.1) fun key => ?_
  cases key with
  | none => rw [hnone hl, hnone hl']
  | some k => exact h k

omit [DecidableEq κ] in
theorem run_keys {l : List ι} (hl : ∀ i ∈ l, (c.key i).isSome) (s : σ) :
    ∀ x ∈ (c.run s l).1, (c.key x.1).isSome := by
  induction l generalizing s with
  | nil => exact fun _ h => nomatch h
  | cons i l ih =>
    intro x hx
    rcases List.mem_cons.mp hx with rfl | hx
    · exact hl i List.mem_cons_self
    · exact ih (fun j hj => hl j (List.mem_cons_of_mem _ hj)) _ x hx

/-- **Interleavings.** Runs with the same operations of every key return the same to every key, and
end with the same parts. -/
theorem Separate.run_perm (h : c.Separate Inv Good s₀) {l l' : List ι}
    (hl : ∀ i ∈ l, (c.key i).isSome) (hl' : ∀ i ∈ l', (c.key i).isSome)
    (hs : ∀ n, Good (c.run s₀ (l.take n)).2) (hs' : ∀ n, Good (c.run s₀ (l'.take n)).2)
    (hsame : ∀ k, c.only k l = c.only k l') :
    (c.run s₀ l).1.Perm (c.run s₀ l').1 ∧
      ∀ k, c.part k (c.run s₀ l).2 = c.part k (c.run s₀ l').2 := by
  have hone := fun k => h.run_only (k := k) l hl hs h.start rfl fun _ _ => rfl
  have hone' := fun k => h.run_only (k := k) l' hl' hs' h.start rfl fun _ _ => rfl
  refine ⟨perm_of_onlyRun (run_keys hl s₀) (run_keys hl' s₀) fun k => ?_, fun k => ?_⟩
  · rw [← (hone k).1, ← (hone' k).1, hsame]
  · rw [← (hone k).2, ← (hone' k).2, hsame]

end Components

end Basis
