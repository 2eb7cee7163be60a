import Lob.Spsc.Steps

/-!
# What a call of the ring waits for

A call of `emplace` on a ring with room, or of `tryPop` on a ring with an object, stores its index after
a few steps of its own, whatever the other thread does. A call returns without a store only where the
ring was full, or empty, at that step.
-/

namespace Lob

open Basis

variable {A T : Type}

/-! ## Calls -/

/-- The steps before the store of the index, if the ring has room. -/
def Emplacing.stepsLeft (call : Emplacing A T) : ℕ :=
  match call.point with
  | .loadWrite => 3
  | .loadRead _ => 2
  | .construct _ => 1
  | .storeWrite _ => 0

/-- The steps before the store of the index, if the ring has an object. -/
def Popping.stepsLeft (call : Popping T) : ℕ :=
  match call.point with
  | .loadRead => 3
  | .loadWrite _ => 2
  | .take _ => 1
  | .storeRead _ => 0

theorem Emplacing.stepsLeft_le (call : Emplacing A T) : call.stepsLeft ≤ 3 := by
  unfold stepsLeft
  cases call.point <;> simp

theorem Popping.stepsLeft_le (call : Popping T) : call.stepsLeft ≤ 3 := by
  unfold stepsLeft
  cases call.point <;> simp

/-- The number of objects between the indexes. -/
def SpscRing.waiting (ring : SpscRing T) : ℕ := (ring.writeIndex - ring.readIndex).toNat

section Calls

variable {ring ring' : SpscRing T} {call call' : Emplacing A T} {left : A} {pop pop' : Popping T}
  {out : T} {capacity : BitVec 64} {emplacing : Option (Emplacing A T)} {popping : Option (Popping T)}
  {popped queued : List T}

theorem SpscRing.Invariant.waiting_eq
    (h : SpscRing.Invariant capacity ring emplacing popping popped queued) :
    ring.waiting = queued.length := by
  unfold SpscRing.waiting
  rw [h.writeIndex, h.readIndex, SpscRing.ofNat_add_sub, BitVec.toNat_ofNat,
    Nat.mod_eq_of_lt (lt_of_le_of_lt h.fits ring.capacity.isLt)]

theorem SpscRing.constructAt_indexes {index : Index} {object : T}
    (run : (SpscRing.constructAt index object).run ring = .ok () ring') :
    ring'.waiting = ring.waiting ∧ ring'.capacity = ring.capacity := by
  unfold SpscRing.constructAt at run
  rw [run_get_bind] at run
  split at run
  · cases run
  · cases run
    exact ⟨rfl, rfl⟩

theorem SpscRing.destroyAt_indexes {index : Index} {object : T}
    (run : (SpscRing.destroyAt index).run ring = .ok object ring') :
    ring'.waiting = ring.waiting ∧ ring'.capacity = ring.capacity := by
  unfold SpscRing.destroyAt at run
  rw [run_get_bind] at run
  split at run
  · cases run
  · cases run
    exact ⟨rfl, rfl⟩

/-- A step that goes on is one step less. -/
theorem Emplacing.step_goesOn (run : call.step.run ring = .ok (.inl call') ring') :
    call'.stepsLeft + 1 = call.stepsLeft ∧ ring'.waiting = ring.waiting ∧
      ring'.capacity = ring.capacity := by
  obtain ⟨construction, given, argument, point⟩ := call
  cases point with
  | loadWrite =>
    cases run
    exact ⟨rfl, rfl, rfl⟩
  | loadRead write =>
    by_cases hc : write - ring.readIndex = ring.capacity
    · rw [run_full hc] at run
      cases run
    · rw [run_room hc] at run
      cases run
      exact ⟨rfl, rfl, rfl⟩
  | construct write =>
    unfold step at run
    simp only at run
    split at run
    · cases run
    · obtain ⟨_, ring₁, run₁, run⟩ := of_run_bind_ok run
      cases run
      exact ⟨rfl, SpscRing.constructAt_indexes run₁⟩
  | storeWrite write => cases run

/-- Only the store of the index pushes. -/
theorem Emplacing.step_pushed (run : call.step.run ring = .ok (.inr (.pushed, left)) ring') :
    ∃ write, call.point = .storeWrite write ∧ ring' = { ring with writeIndex := write + 1 } := by
  obtain ⟨construction, given, argument, point⟩ := call
  cases point with
  | loadWrite => cases run
  | loadRead write =>
    by_cases hc : write - ring.readIndex = ring.capacity
    · rw [run_full hc] at run
      cases run
    · rw [run_room hc] at run
      cases run
  | construct write =>
    unfold step at run
    simp only at run
    split at run
    · cases run
    · obtain ⟨_, ring₁, _, run⟩ := of_run_bind_ok run
      cases run
  | storeWrite write =>
    cases run
    exact ⟨write, rfl, rfl⟩

/-- Only the load of the other index finds the ring full. -/
theorem Emplacing.step_full (run : call.step.run ring = .ok (.inr (.full, left)) ring') :
    ∃ write, call.point = .loadRead write ∧ write - ring.readIndex = ring.capacity ∧ ring' = ring := by
  obtain ⟨construction, given, argument, point⟩ := call
  cases point with
  | loadWrite => cases run
  | loadRead write =>
    by_cases hc : write - ring.readIndex = ring.capacity
    · rw [run_full hc] at run
      cases run
      exact ⟨write, rfl, hc, rfl⟩
    · rw [run_room hc] at run
      cases run
  | construct write =>
    unfold step at run
    simp only at run
    split at run
    · cases run
    · obtain ⟨_, ring₁, _, run⟩ := of_run_bind_ok run
      cases run
  | storeWrite write => cases run

/-- A step that goes on is one step less. -/
theorem Popping.step_goesOn (run : pop.step.run ring = .ok (.inl pop') ring') :
    pop'.stepsLeft + 1 = pop.stepsLeft ∧ ring'.waiting = ring.waiting ∧
      ring'.capacity = ring.capacity := by
  obtain ⟨given, out, point⟩ := pop
  cases point with
  | loadRead =>
    cases run
    exact ⟨rfl, rfl, rfl⟩
  | loadWrite read =>
    by_cases hc : read = ring.writeIndex
    · rw [run_empty hc] at run
      cases run
    · rw [run_nonempty hc] at run
      cases run
      exact ⟨rfl, rfl, rfl⟩
  | take read =>
    unfold step at run
    obtain ⟨object, ring₁, run₁, run⟩ := of_run_bind_ok run
    cases run
    exact ⟨rfl, SpscRing.destroyAt_indexes run₁⟩
  | storeRead read => cases run

/-- Only the store of the index pops. -/
theorem Popping.step_popped (run : pop.step.run ring = .ok (.inr (true, out)) ring') :
    ∃ read, pop.point = .storeRead read ∧ ring' = { ring with readIndex := read + 1 } := by
  obtain ⟨given, out, point⟩ := pop
  cases point with
  | loadRead => cases run
  | loadWrite read =>
    by_cases hc : read = ring.writeIndex
    · rw [run_empty hc] at run
      cases run
    · rw [run_nonempty hc] at run
      cases run
  | take read =>
    unfold step at run
    obtain ⟨object, ring₁, _, run⟩ := of_run_bind_ok run
    cases run
  | storeRead read =>
    cases run
    exact ⟨read, rfl, rfl⟩

/-- Only the load of the other index finds the ring empty. -/
theorem Popping.step_empty (run : pop.step.run ring = .ok (.inr (false, out)) ring') :
    ∃ read, pop.point = .loadWrite read ∧ read = ring.writeIndex ∧ ring' = ring := by
  obtain ⟨given, out, point⟩ := pop
  cases point with
  | loadRead => cases run
  | loadWrite read =>
    by_cases hc : read = ring.writeIndex
    · rw [run_empty hc] at run
      cases run
      exact ⟨read, rfl, hc, rfl⟩
    · rw [run_nonempty hc] at run
      cases run
  | take read =>
    unfold step at run
    obtain ⟨object, ring₁, _, run⟩ := of_run_bind_ok run
    cases run
  | storeRead read => cases run

end Calls

namespace SpscRing.Invariant

variable {ring ring' : SpscRing T} {call : Emplacing A T} {left : A} {pop : Popping T}
  {out : T} {capacity : BitVec 64} {emplacing : Option (Emplacing A T)} {popping : Option (Popping T)}
  {popped queued : List T}

theorem waiting_pushed (h : Invariant capacity ring (some call) popping popped queued)
    (run : call.step.run ring = .ok (.inr (.pushed, left)) ring') :
    ring'.waiting = ring.waiting + 1 := by
  obtain ⟨write, hpoint, rfl⟩ := Emplacing.step_pushed run
  obtain ⟨object, _, hnext⟩ := h.publish hpoint
  rw [hnext.waiting_eq, h.waiting_eq, List.length_append, List.length_singleton]

theorem waiting_full (h : Invariant capacity ring (some call) popping popped queued)
    (run : call.step.run ring = .ok (.inr (.full, left)) ring') :
    ring.waiting = ring.capacity.toNat ∧ ring' = ring := by
  obtain ⟨write, hpoint, hfull, rfl⟩ := Emplacing.step_full run
  have hknows := h.pushes call rfl
  unfold Emplacing.Knows at hknows
  simp only [hpoint] at hknows
  rw [hknows.2] at hfull
  exact ⟨h.waiting_eq.trans (h.full_iff.mp hfull), rfl⟩

theorem waiting_popped (h : Invariant capacity ring emplacing (some pop) popped queued)
    (run : pop.step.run ring = .ok (.inr (true, out)) ring') :
    ring'.waiting + 1 = ring.waiting := by
  obtain ⟨read, hpoint, rfl⟩ := Popping.step_popped run
  obtain ⟨rest, hrest, hnext⟩ := h.release hpoint
  rw [hnext.waiting_eq, h.waiting_eq, hrest, List.length_cons]

theorem waiting_zero_iff (h : Invariant capacity ring emplacing popping popped queued) :
    ring.waiting = 0 ↔ ring.readIndex = ring.writeIndex := by
  rw [h.waiting_eq, h.empty_iff, List.length_eq_zero_iff]

theorem waiting_empty (h : Invariant capacity ring emplacing (some pop) popped queued)
    (run : pop.step.run ring = .ok (.inr (false, out)) ring') :
    ring.waiting = 0 ∧ pop.stepsLeft = 2 ∧ ring' = ring := by
  obtain ⟨read, hpoint, hempty, rfl⟩ := Popping.step_empty run
  have hknows := h.pops pop rfl
  unfold Popping.Knows at hknows
  simp only [hpoint] at hknows
  refine ⟨h.waiting_zero_iff.mpr (hknows.2.symm.trans hempty), ?_, rfl⟩
  unfold Popping.stepsLeft
  rw [hpoint]

/-- A call that has found an object takes one: the ring is not empty. -/
theorem waiting_pos (h : Invariant capacity ring emplacing (some pop) popped queued)
    (hfew : pop.stepsLeft < 2) : 0 < ring.waiting := by
  have hknows := h.pops pop rfl
  unfold Popping.Knows at hknows
  unfold Popping.stepsLeft at hfew
  rw [h.waiting_eq]
  cases hpoint : pop.point with
  | loadRead => simp [hpoint] at hfew
  | loadWrite read => simp [hpoint] at hfew
  | take read =>
    simp only [hpoint] at hknows
    exact List.length_pos_iff.mpr hknows.2
  | storeRead read =>
    simp only [hpoint] at hknows
    obtain ⟨rest, hrest⟩ := hknows.2
    rw [hrest]
    exact Nat.succ_pos _

end SpscRing.Invariant

end Lob
