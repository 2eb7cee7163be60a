import Lob.Basis.Triple

/-!
# Two runs of a program

A run that may fail beside one that returns, from related states: either both return the same and the
states stay related, or the first one fails. There is a rule for each way to build a computation.
-/

namespace Basis

variable {ε σ τ κ μ α β : Type}

/-- From states in `R`, what `m'` returns `m` returns too, with states in `S`, or `m` fails with `E`. -/
def Follows (R : σ → τ → Prop) (m : EStateM ε σ α) (m' : EStateM ε τ α) (S : α → σ → τ → Prop)
    (E : ε → σ → Prop) : Prop :=
  ∀ s t, R s t → ∀ a t', m'.run t = .ok a t' →
    (∃ s', m.run s = .ok a s' ∧ S a s' t') ∨ ∃ e s', m.run s = .error e s' ∧ E e s'

namespace Follows

variable {R R' : σ → τ → Prop} {m n : EStateM ε σ α} {m' n' : EStateM ε τ α}
  {S S' : α → σ → τ → Prop} {T : β → σ → τ → Prop} {E E' : ε → σ → Prop}

theorem conseq (h : Follows R m m' S E) (hpre : ∀ s t, R' s t → R s t)
    (hpost : ∀ a s t, S a s t → S' a s t) (herror : ∀ e s, E e s → E' e s) :
    Follows R' m m' S' E' := by
  intro s t hR a t' run
  rcases h s t (hpre s t hR) a t' run with ⟨s', run', hS⟩ | ⟨e, s', run', hE⟩
  · exact Or.inl ⟨s', run', hpost a s' t' hS⟩
  · exact Or.inr ⟨e, s', run', herror e s' hE⟩

theorem pre (h : Follows R m m' S E) (hpre : ∀ s t, R' s t → R s t) : Follows R' m m' S E :=
  h.conseq hpre (fun _ _ _ => id) fun _ _ => id

theorem error (h : Follows R m m' S E) (herror : ∀ e s, E e s → E' e s) : Follows R m m' S E' :=
  h.conseq (fun _ _ => id) (fun _ _ _ => id) herror

theorem pure {a : α} (h : ∀ s t, R s t → S a s t) : Follows R (pure a) (pure a) S E := by
  intro s t hR a' t' run
  cases run
  exact Or.inl ⟨s, rfl, h s t hR⟩

theorem bind {f : α → EStateM ε σ β} {f' : α → EStateM ε τ β} (hm : Follows R m m' S E)
    (hf : ∀ a, Follows (S a) (f a) (f' a) T E) : Follows R (m >>= f) (m' >>= f') T E := by
  intro s t hR b t'' run
  obtain ⟨a, t', run₁, run₂⟩ := of_run_bind_ok run
  rcases hm s t hR a t' run₁ with ⟨s', run', hS⟩ | ⟨e, s', run', hE⟩
  · rw [run_bind_ok run']
    exact hf a s' t' hS b t'' run₂
  · exact Or.inr ⟨e, s', run_bind_error run', hE⟩

/-- A first step that returns a known value, and leaves a known state on the right. -/
theorem step {f : α → EStateM ε σ β} {f' : α → EStateM ε τ β} {a : α} {t₁ : τ}
    (hm : Follows R m m' S E) (hrun : ∀ s t, R s t → m'.run t = .ok a t₁)
    (hf : Follows (fun s t => S a s t ∧ t = t₁) (f a) (f' a) T E) :
    Follows R (m >>= f) (m' >>= f') T E := by
  intro s t hR b t'' run
  rw [run_bind_ok (hrun s t hR)] at run
  rcases hm s t hR a t₁ (hrun s t hR) with ⟨s', run', hS⟩ | ⟨e, s', run', hE⟩
  · rw [run_bind_ok run']
    exact hf s' t₁ ⟨hS, rfl⟩ b t'' run
  · exact Or.inr ⟨e, s', run_bind_error run', hE⟩

theorem get_bind {f : σ → EStateM ε σ α} {f' : τ → EStateM ε τ α}
    (h : ∀ s t, R s t → Follows (fun s' t' => s' = s ∧ t' = t) (f s) (f' t) S E) :
    Follows R (get >>= f) (get >>= f') S E := by
  intro s t hR a t' run
  rw [run_get_bind] at run ⊢
  exact h s t hR s t ⟨rfl, rfl⟩ a t' run

theorem ite {c c' : Prop} [Decidable c] [Decidable c'] (hc : c ↔ c')
    (hthen : c → Follows R m m' S E) (helse : ¬c → Follows R n n' S E) :
    Follows R (if c then m else n) (if c' then m' else n') S E := by
  by_cases h : c
  · rw [if_pos h, if_pos (hc.mp h)]
    exact hthen h
  · rw [if_neg h, if_neg fun h' => h (hc.mpr h')]
    exact helse h

theorem modify {f : σ → σ} {f' : τ → τ} {S : Unit → σ → τ → Prop}
    (h : ∀ s t, R s t → S () (f s) (f' t)) : Follows R (modify f) (modify f') S E := by
  intro s t hR a t' run
  cases run
  exact Or.inl ⟨_, rfl, h s t hR⟩

/-- Readers that return the same. -/
theorem observe {f : σ → Except ε α} {f' : τ → Except ε α} (hf : ∀ s t, R s t → f s = f' t)
    (hS : ∀ a s t, R s t → S a s t) : Follows R (observe f) (observe f') S E := by
  intro s t hR a t' run
  obtain ⟨ha, rfl⟩ := of_observe_ok run
  exact Or.inl ⟨s, observe_ok ((hf s _ hR).trans ha), hS a s _ hR⟩

/-- Computations on components, both of them there. -/
theorem focus {view : σ → Except ε κ} {update : σ → κ → σ} {view' : τ → Except ε μ}
    {update' : τ → μ → τ} {m : EStateM ε κ α} {m' : EStateM ε μ α}
    (h : ∀ s t, R s t → ∀ y, view' t = .ok y → ∃ x, view s = .ok x ∧
      Follows (fun x' y' => x' = x ∧ y' = y) m m' (fun a x' y' => S a (update s x') (update' t y'))
        fun e x' => E e (update s x')) :
    Follows R (focus view update m) (focus view' update' m') S E := by
  intro s t hR a t' run
  cases hview' : view' t with
  | error e =>
    unfold Basis.focus at run
    simp only [EStateM.run] at run
    rw [hview'] at run
    cases run
  | ok y =>
    obtain ⟨x, hview, hm⟩ := h s t hR y hview'
    cases hrun' : m'.run y with
    | error e y' =>
      rw [focus_error hview' hrun'] at run
      cases run
    | ok a' y' =>
      rw [focus_ok hview' hrun'] at run
      cases run
      rcases hm x y ⟨rfl, rfl⟩ a y' hrun' with ⟨x', run, hS⟩ | ⟨e, x', run, hE⟩
      · exact Or.inl ⟨_, focus_ok hview run, hS⟩
      · exact Or.inr ⟨e, _, focus_error hview run, hE⟩

end Follows

end Basis
