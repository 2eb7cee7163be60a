import Lob.Basis.Exec

/-!
# Triples

Pre- and postconditions of computations that can fail: one postcondition for a return, one for an
error. There is a rule for each way to build a computation.
-/

namespace Basis

variable {ε σ τ α β : Type}

/-- From a state with `P` the computation returns with `Q` or fails with `E`. -/
def Triple (P : σ → Prop) (m : EStateM ε σ α) (Q : α → σ → Prop) (E : ε → σ → Prop) : Prop :=
  ∀ s, P s →
    match m.run s with
    | .ok a s' => Q a s'
    | .error e s' => E e s'

namespace Triple

variable {P P' : σ → Prop} {m m' : EStateM ε σ α} {Q Q' : α → σ → Prop} {R : β → σ → Prop}
  {E E' : ε → σ → Prop} {s s' : σ}

theorem of_ok (h : Triple P m Q E) (hs : P s) {a : α} (run : m.run s = .ok a s') : Q a s' := by
  have hm := h s hs
  rwa [run] at hm

theorem of_error (h : Triple P m Q E) (hs : P s) {e : ε} (run : m.run s = .error e s') : E e s' := by
  have hm := h s hs
  rwa [run] at hm

/-- From each state the computation has one of the two outcomes. -/
theorem of_run (h : ∀ s, P s → (∃ a s', m.run s = .ok a s' ∧ Q a s') ∨
    ∃ e s', m.run s = .error e s' ∧ E e s') : Triple P m Q E := by
  intro s hs
  rcases h s hs with ⟨a, s', run, hq⟩ | ⟨e, s', run, he⟩
  · rw [run]
    exact hq
  · rw [run]
    exact he

theorem conseq (h : Triple P m Q E) (hpre : ∀ s, P' s → P s) (hpost : ∀ a s, Q a s → Q' a s)
    (herror : ∀ e s, E e s → E' e s) : Triple P' m Q' E' := by
  intro s hs
  have hm := h s (hpre s hs)
  split at hm
  · exact hpost _ _ hm
  · exact herror _ _ hm

theorem pre (h : Triple P m Q E) (hpre : ∀ s, P' s → P s) : Triple P' m Q E :=
  h.conseq hpre (fun _ _ => id) fun _ _ => id

theorem error (h : Triple P m Q E) (herror : ∀ e s, E e s → E' e s) : Triple P m Q E' :=
  h.conseq (fun _ => id) (fun _ _ => id) herror

/-- A precondition that does not speak of the state. -/
theorem assume {p : Prop} (h : p → Triple P m Q E) : Triple (fun s => p ∧ P s) m Q E :=
  fun s hs => h hs.1 s hs.2

theorem pure {a : α} (h : ∀ s, P s → Q a s) : Triple P (pure a) Q E := fun s hs => h s hs

theorem bind {m : EStateM ε σ β} {f : β → EStateM ε σ α} (hm : Triple P m R E)
    (hf : ∀ b, Triple (R b) (f b) Q E) : Triple P (m >>= f) Q E := by
  intro s hs
  have hfirst := hm s hs
  rw [EStateM.run_bind]
  cases hrun : m.run s with
  | ok b s' =>
    rw [hrun] at hfirst
    exact hf b s' hfirst
  | error e s' =>
    rw [hrun] at hfirst
    exact hfirst

theorem ite {c : Prop} [Decidable c] (hthen : c → Triple P m Q E) (helse : ¬c → Triple P m' Q E) :
    Triple P (if c then m else m') Q E := by
  by_cases hc : c
  · rw [if_pos hc]
    exact hthen hc
  · rw [if_neg hc]
    exact helse hc

theorem get : Triple P (get : EStateM ε σ σ) (fun x s => s = x ∧ P s) E := fun _ hs => ⟨rfl, hs⟩

theorem modify {f : σ → σ} {Q : Unit → σ → Prop} (h : ∀ s, P s → Q () (f s)) :
    Triple P (modify f) Q E := fun s hs => h s hs

/-- A reader that returns. -/
theorem observe {f : σ → Except ε α} (h : ∀ s, P s → ∃ a, f s = .ok a ∧ Q a s) :
    Triple P (observe f) Q E := by
  intro s hs
  obtain ⟨a, ha, hq⟩ := h s hs
  rw [observe_ok ha]
  exact hq

/-- A computation on a component that is there. -/
theorem focus {view : σ → Except ε τ} {update : σ → τ → σ} {m : EStateM ε τ α}
    (h : ∀ s, P s → ∃ t, view s = .ok t ∧
      Triple (· = t) m (fun a t' => Q a (update s t')) fun e t' => E e (update s t')) :
    Triple P (focus view update m) Q E := by
  intro s hs
  obtain ⟨t, hview, hm⟩ := h s hs
  have hrun := hm t rfl
  cases run : m.run t with
  | ok a t' =>
    rw [run] at hrun
    rw [focus_ok hview run]
    exact hrun
  | error e t' =>
    rw [run] at hrun
    rw [focus_error hview run]
    exact hrun

end Triple

end Basis
