import Mathlib.Tactic.Common

/-!
# Running state machines that can fail

The imperative code is embedded in `EStateM`: a computation returns a value and a state, or an
error and the state it was raised in. `zoom` runs a computation on one component of a state and
`observe` runs a reader. Every rule below computes one `run`, so that a straight-line program is
executed by rewriting.
-/

namespace Basis

variable {ε σ τ α β γ : Type}

/-- Runs `m` on the component `view s`, and stores the component back in both outcomes. -/
def zoom (view : σ → τ) (update : σ → τ → σ) (m : EStateM ε τ α) : EStateM ε σ α := fun s =>
  match m.run (view s) with
  | .ok a t => .ok a (update s t)
  | .error e t => .error e (update s t)

/-- Runs `m` on a component that may be missing: then its error is raised. -/
def focus (view : σ → Except ε τ) (update : σ → τ → σ) (m : EStateM ε τ α) : EStateM ε σ α :=
  fun s =>
    match view s with
    | .error e => .error e s
    | .ok t =>
      match m.run t with
      | .ok a t => .ok a (update s t)
      | .error e t => .error e (update s t)

/-- Runs a reader; the state is left as it is. -/
def observe (f : σ → Except ε α) : EStateM ε σ α := fun s =>
  match f s with
  | .ok a => .ok a s
  | .error e => .error e s

@[simp] theorem except_ok_bind (a : α) (f : α → Except ε β) : (Except.ok a >>= f) = f a := rfl

theorem run_bind_ok {m : EStateM ε σ α} {f : α → EStateM ε σ β} {s s' : σ} {a : α}
    (h : m.run s = .ok a s') : (m >>= f).run s = (f a).run s' := by
  rw [EStateM.run_bind, h]

theorem run_bind_error {m : EStateM ε σ α} {f : α → EStateM ε σ β} {s s' : σ} {e : ε}
    (h : m.run s = .error e s') : (m >>= f).run s = .error e s' := by
  rw [EStateM.run_bind, h]

theorem run_get_bind {f : σ → EStateM ε σ α} (s : σ) :
    ((get : EStateM ε σ σ) >>= f).run s = (f s).run s := rfl

/-- A computation that returns has run its first step. -/
theorem of_run_bind_ok {m : EStateM ε σ α} {f : α → EStateM ε σ β} {s s'' : σ} {b : β}
    (h : (m >>= f).run s = .ok b s'') :
    ∃ a s', m.run s = .ok a s' ∧ (f a).run s' = .ok b s'' := by
  rw [EStateM.run_bind] at h
  cases hm : m.run s with
  | ok a s' =>
    rw [hm] at h
    exact ⟨a, s', rfl, h⟩
  | error e s' =>
    rw [hm] at h
    cases h

/-- Two steps at once, as a program has them in front of the rest. -/
theorem run_bind_bind_ok {m : EStateM ε σ α} {f : α → EStateM ε σ β} {g : β → EStateM ε σ γ}
    {s s' : σ} {b : β} (h : (m >>= f).run s = .ok b s') :
    (m >>= fun a => f a >>= g).run s = (g b).run s' := by
  rw [← bind_assoc, run_bind_ok h]

/-- A conditional step in front of the rest. -/
theorem ite_bind {c : Prop} [Decidable c] {m : EStateM ε σ Unit} {f : Unit → EStateM ε σ α} :
    (if c then m >>= f else f ()) = ((if c then m else pure ()) >>= f) := by
  split_ifs
  · rfl
  · rw [pure_bind]

theorem zoom_ok {view : σ → τ} {update : σ → τ → σ} {m : EStateM ε τ α} {s : σ} {t : τ} {a : α}
    (h : m.run (view s) = .ok a t) : (zoom view update m).run s = .ok a (update s t) := by
  unfold zoom
  simp only [EStateM.run] at h ⊢
  rw [h]

/-- A component that returns has run. -/
theorem of_zoom_ok {view : σ → τ} {update : σ → τ → σ} {m : EStateM ε τ α} {s s' : σ} {a : α}
    (h : (zoom view update m).run s = .ok a s') :
    ∃ t, m.run (view s) = .ok a t ∧ s' = update s t := by
  unfold zoom at h
  simp only [EStateM.run] at h ⊢
  cases hm : m (view s) with
  | ok a' t =>
    rw [hm] at h
    cases h
    exact ⟨t, rfl, rfl⟩
  | error e t =>
    rw [hm] at h
    cases h

theorem of_observe_ok {f : σ → Except ε α} {s s' : σ} {a : α} (h : (observe f).run s = .ok a s') :
    f s = .ok a ∧ s' = s := by
  unfold observe at h
  simp only [EStateM.run] at h
  cases hf : f s with
  | ok a' =>
    rw [hf] at h
    cases h
    exact ⟨rfl, rfl⟩
  | error e =>
    rw [hf] at h
    cases h

theorem zoom_error {view : σ → τ} {update : σ → τ → σ} {m : EStateM ε τ α} {s : σ} {t : τ} {e : ε}
    (h : m.run (view s) = .error e t) :
    (zoom view update m).run s = .error e (update s t) := by
  unfold zoom
  simp only [EStateM.run] at h ⊢
  rw [h]

theorem focus_ok {view : σ → Except ε τ} {update : σ → τ → σ} {m : EStateM ε τ α} {s : σ} {t t' : τ}
    {a : α} (hv : view s = .ok t) (h : m.run t = .ok a t') :
    (focus view update m).run s = .ok a (update s t') := by
  unfold focus
  simp only [EStateM.run] at h ⊢
  rw [hv]
  simp only [h]

theorem focus_error {view : σ → Except ε τ} {update : σ → τ → σ} {m : EStateM ε τ α} {s : σ}
    {t t' : τ} {e : ε} (hv : view s = .ok t) (h : m.run t = .error e t') :
    (focus view update m).run s = .error e (update s t') := by
  unfold focus
  simp only [EStateM.run] at h ⊢
  rw [hv]
  simp only [h]

theorem observe_ok {f : σ → Except ε α} {s : σ} {a : α} (h : f s = .ok a) :
    (observe f).run s = .ok a s := by
  unfold observe
  simp only [EStateM.run]
  rw [h]

/-- A failing reader leaves the state too: whatever it does, the state afterwards is `s`. -/
theorem observe_error {f : σ → Except ε α} {s : σ} {e : ε} (h : f s = .error e) :
    (observe f).run s = .error e s := by
  unfold observe
  simp only [EStateM.run]
  rw [h]

/-- A handler sees the state the error was raised in. -/
theorem tryCatch_error {m : EStateM ε σ α} {handle : ε → EStateM ε σ α} {s s' : σ} {e : ε}
    (h : m.run s = .error e s') : (tryCatch m handle).run s = (handle e).run s' := by
  show EStateM.tryCatch m handle s = _
  simp only [EStateM.run] at h ⊢
  unfold EStateM.tryCatch
  rw [h]
  rfl

theorem tryCatch_ok {m : EStateM ε σ α} {handle : ε → EStateM ε σ α} {s s' : σ} {a : α}
    (h : m.run s = .ok a s') : (tryCatch m handle).run s = .ok a s' := by
  show EStateM.tryCatch m handle s = _
  simp only [EStateM.run] at h ⊢
  unfold EStateM.tryCatch
  rw [h]

/-! ## Evaluation -/

/-- A part of what a run returns and leaves. -/
def evaluate (m : EStateM ε σ α) (part : α → σ → γ) (s : σ) : Option γ :=
  match m.run s with
  | .ok a s' => some (part a s')
  | .error _ _ => none

theorem of_evaluate {m : EStateM ε σ α} {s s' : σ} {a : α} (run : m.run s = .ok a s')
    (part : α → σ → γ) {c : γ} (h : evaluate m part s = some c) : part a s' = c := by
  unfold evaluate at h
  rw [run] at h
  exact Option.some.inj h

end Basis
