import Lob.Basis.Exec
import Mathlib.Data.List.Induction

/-!
# Runs of a system

A system takes one action at a time, emits events and may fail. A run is any list of actions; an
invariant relates the events emitted so far to the state, so that it may speak about what was done.
-/

namespace Basis

variable {ε σ α β : Type} (step : α → EStateM ε σ (List β))

/-- Runs the actions in order and returns all the events. -/
def trace : List α → EStateM ε σ (List β)
  | [] => return []
  | action :: actions => do
    let events ← step action
    return events ++ (← trace actions)

/-- `s'` is reached from `s` by a run that emits `events`. -/
def Reaches (s : σ) (events : List β) (s' : σ) : Prop :=
  ∃ actions, (trace step actions).run s = .ok events s'

/-- No step fails, and each preserves `P`. -/
def Preserves (P : List β → σ → Prop) : Prop :=
  ∀ {before s} action, P before s →
    ∃ events s', (step action).run s = .ok events s' ∧ P (before ++ events) s'

variable {step} {s s' s'' : σ} {events events' : List β}

theorem trace_cons_ok {action : α} {actions : List α} (h : (step action).run s = .ok events s')
    (h' : (trace step actions).run s' = .ok events' s'') :
    (trace step (action :: actions)).run s = .ok (events ++ events') s'' := by
  unfold trace
  rw [run_bind_ok h, run_bind_ok h']
  rfl

theorem trace_append_ok {actions more : List α} (h : (trace step actions).run s = .ok events s')
    (h' : (trace step more).run s' = .ok events' s'') :
    (trace step (actions ++ more)).run s = .ok (events ++ events') s'' := by
  induction actions generalizing s events with
  | nil =>
    cases h
    exact h'
  | cons action actions ih =>
    unfold trace at h
    obtain ⟨events₁, s₁, run₁, h⟩ := of_run_bind_ok h
    obtain ⟨events₂, s₂, run₂, h⟩ := of_run_bind_ok h
    cases h
    rw [List.append_assoc]
    exact trace_cons_ok run₁ (ih run₂)

/-- **An invariant holds along every run**, and no run fails. -/
theorem Preserves.trace {P : List β → σ → Prop} (h : Preserves step P) (actions : List α) :
    ∀ {before s}, P before s →
      ∃ events s', (trace step actions).run s = .ok events s' ∧ P (before ++ events) s' := by
  induction actions with
  | nil =>
    intro before s hs
    exact ⟨[], s, rfl, by rwa [List.append_nil]⟩
  | cons action actions ih =>
    intro before s hs
    obtain ⟨events₁, s₁, run₁, h₁⟩ := h action hs
    obtain ⟨events₂, s₂, run₂, h₂⟩ := ih h₁
    refine ⟨_, s₂, trace_cons_ok run₁ run₂, ?_⟩
    rwa [← List.append_assoc]

theorem Preserves.reaches {P : List β → σ → Prop} (h : Preserves step P) (hs : P [] s)
    (hrun : Reaches step s events s') : P events s' := by
  obtain ⟨actions, run⟩ := hrun
  obtain ⟨events₁, s₁, run₁, h₁⟩ := h.trace actions hs
  rw [run] at run₁
  cases run₁
  exact h₁

/-! ## Calls -/

/-- A step of a caller goes deeper into its call or returns from it, at a depth below `bound`; other
steps leave the caller where it is. -/
structure Returning (step : α → EStateM ε σ (List β)) (P : List β → σ → Prop) (mine : α → Bool)
    (own : β → Bool) (bound : ℕ) (depth : σ → ℕ) : Prop where
  depth_lt : ∀ {before s}, P before s → depth s < bound
  step : ∀ {before s} action, P before s → ∃ events s', (step action).run s = .ok events s' ∧
    P (before ++ events) s' ∧
      (mine action).toNat + depth s ≤ bound * events.countP own + depth s'

variable {P : List β → σ → Prop} {mine : α → Bool} {own : β → Bool} {bound : ℕ} {depth : σ → ℕ}

/-- A run has an event for every `bound` steps of the caller, but for those of the call in progress. -/
theorem Returning.trace (h : Returning step P mine own bound depth) (actions : List α) :
    ∀ {before s}, P before s → ∃ events s', (trace step actions).run s = .ok events s' ∧
      P (before ++ events) s' ∧
      actions.countP mine + depth s ≤ bound * events.countP own + depth s' := by
  induction actions with
  | nil =>
    intro before s hs
    exact ⟨[], s, rfl, by rwa [List.append_nil], Nat.le_refl _⟩
  | cons action actions ih =>
    intro before s hs
    obtain ⟨events₁, s₁, run₁, h₁, hle₁⟩ := h.step action hs
    obtain ⟨events₂, s₂, run₂, h₂, hle₂⟩ := ih h₁
    refine ⟨_, s₂, trace_cons_ok run₁ run₂, by rwa [← List.append_assoc], ?_⟩
    have hcount : (action :: actions).countP mine = actions.countP mine + (mine action).toNat := by
      rw [List.countP_cons]
      cases mine action <;> rfl
    rw [hcount, List.countP_append, Nat.mul_add]
    omega

/-- **The caller returns** within `bound` steps of its own, whatever the steps between them. -/
theorem Returning.returns (h : Returning step P mine own bound depth) {before : List β} {s : σ}
    (hs : P before s) {actions : List α} (hsteps : bound ≤ actions.countP mine) :
    ∃ events s', (Basis.trace step actions).run s = .ok events s' ∧ ∃ event ∈ events, own event := by
  obtain ⟨events, s', run, hs', hle⟩ := h.trace actions hs
  have hlt := h.depth_lt hs'
  refine ⟨events, s', run, List.countP_pos_iff.mp (Nat.pos_of_ne_zero fun hzero => ?_)⟩
  rw [hzero] at hle
  omega

/-! ## Logs -/

/-- Each event of a log is admitted by the events before it. -/
def Justified (admits : List β → β → Prop) (events : List β) : Prop :=
  ∀ before event after, events = before ++ event :: after → admits before event

theorem justified_nil (admits : List β → β → Prop) : Justified admits [] := by
  intro before event after heq
  cases before <;> cases heq

theorem Justified.concat {admits : List β → β → Prop} (h : Justified admits events) {event : β}
    (hevent : admits events event) : Justified admits (events ++ [event]) := by
  intro before event' after heq
  induction after using List.reverseRecOn with
  | nil =>
    obtain ⟨rfl, hsingle⟩ := List.append_inj' heq rfl
    cases hsingle
    exact hevent
  | append_singleton after last =>
    rw [← List.cons_append, ← List.append_assoc] at heq
    exact h before event' after (List.append_inj' heq rfl).1

/-- Events that are admitted after any others. -/
theorem Justified.append {admits : List β → β → Prop} (h : Justified admits events)
    (hmore : ∀ event ∈ events', ∀ before, admits before event) :
    Justified admits (events ++ events') := by
  induction events' using List.reverseRecOn with
  | nil => rwa [List.append_nil]
  | append_singleton events' last ih =>
    rw [← List.append_assoc]
    exact (ih fun event hevent => hmore event (List.mem_append_left _ hevent)).concat
      (hmore last (by simp) _)

end Basis
