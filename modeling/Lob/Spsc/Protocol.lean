import Lob.Basis.Window
import Lob.Spsc.Ring
import Mathlib.Tactic.Ring

/-!
# The protocol of the ring

Between any two steps the ring holds the values that were pushed and not popped, less the one that
`tryPop` has taken and not released and with the one that `emplace` has constructed and not published.
Only the writer of an index changes it, so its own copy is never stale; the copy of the other index
is used once, to compare, and what the comparison says stays true whatever the other thread does.
-/

namespace Lob

open Basis

variable {A T : Type}

/-! ## Calls in progress -/

/-- Constructed and not published. -/
def Emplacing.placed (call : Emplacing A T) : List T :=
  match call.point with
  | .storeWrite _ => (call.construction call.given).1.toList
  | _ => []

/-- Taken and not released. -/
def Popping.taken (call : Popping T) : ℕ :=
  match call.point with
  | .storeRead _ => 1
  | _ => 0

/-- What a call of `emplace` knows, with these values in the queue. -/
def Emplacing.Knows (ring : SpscRing T) (queued : List T) (call : Emplacing A T) : Prop :=
  match call.point with
  | .loadWrite => call.argument = call.given
  | .loadRead write => call.argument = call.given ∧ write = ring.writeIndex
  | .construct write =>
    call.argument = call.given ∧ write = ring.writeIndex ∧ queued.length < ring.capacity.toNat
  | .storeWrite write =>
    write = ring.writeIndex ∧ queued.length < ring.capacity.toNat ∧
      ∃ object, call.construction call.given = (some object, call.argument)

/-- What a call of `tryPop` knows. -/
def Popping.Knows (ring : SpscRing T) (queued : List T) (call : Popping T) : Prop :=
  match call.point with
  | .loadRead => call.out = call.given
  | .loadWrite read => call.out = call.given ∧ read = ring.readIndex
  | .take read => read = ring.readIndex ∧ queued ≠ []
  | .storeRead read => read = ring.readIndex ∧ ∃ rest, queued = call.out :: rest

namespace SpscRing

/-- A ring of this capacity and the calls in progress on it, after the values `popped` came out and
with `queued` the ones that were pushed after them. -/
structure Invariant (capacity : BitVec 64) (ring : SpscRing T) (emplacing : Option (Emplacing A T))
    (popping : Option (Popping T)) (popped queued : List T) : Prop where
  size : ring.capacity = capacity
  powerOfTwo : ring.capacity.toNat.isPowerOfTwo
  writeIndex : ring.writeIndex = BitVec.ofNat 64 (popped.length + queued.length)
  readIndex : ring.readIndex = BitVec.ofNat 64 popped.length
  fits : queued.length ≤ ring.capacity.toNat
  pushes : ∀ call ∈ emplacing, call.Knows ring queued
  pops : ∀ call ∈ popping, call.Knows ring queued
  slots : Holds ring.capacity.toNat ring.slots (popped.length + popping.elim 0 Popping.taken)
    (queued.drop (popping.elim 0 Popping.taken) ++ emplacing.elim [] Emplacing.placed)

/-! ## Indexes -/

variable {ring : SpscRing T}

/-- The constructor, at a power of two: only the memory is missing. -/
theorem new_eq {capacity : BitVec 64} (h : capacity.toNat.isPowerOfTwo) (memory : SlotMemory) :
    (new memory capacity : Except RingError (SpscRing T)) =
      if memory.Grants capacity then .ok ⟨capacity, fun _ => none, 0, 0⟩
      else .error (memory.exception capacity) := by
  unfold new allocateSlots SlotMemory.exception
  rw [if_neg fun hbad => (not_powerOfTwo_iff capacity).mp hbad h]
  by_cases hlimit : memory.limit < capacity.toNat * memory.slotSize
  · have hgrants : ¬memory.Grants capacity := fun hgrants => absurd hgrants.1 (Nat.not_le.mpr hlimit)
    rw [if_pos hlimit, if_pos hlimit, if_neg hgrants]
    rfl
  · rw [if_neg hlimit, if_neg hlimit]
    by_cases hgranted : memory.granted = true
    · have hgrants : memory.Grants capacity := ⟨Nat.not_lt.mp hlimit, hgranted⟩
      rw [if_pos hgranted, if_pos hgrants]
      rfl
    · have hgrants : ¬memory.Grants capacity := fun hgrants => hgranted hgrants.2
      rw [if_neg hgranted, if_neg hgrants]
      rfl

theorem new_eq_ok {memory : SlotMemory} {capacity : BitVec 64} (h : new memory capacity = .ok ring) :
    capacity.toNat.isPowerOfTwo ∧ ring = ⟨capacity, fun _ => none, 0, 0⟩ := by
  by_cases hpower : capacity.toNat.isPowerOfTwo
  · rw [new_eq hpower] at h
    split_ifs at h
    exact ⟨hpower, (Except.ok.inj h).symm⟩
  · unfold new allocateSlots at h
    rw [if_pos ((not_powerOfTwo_iff capacity).mpr hpower)] at h
    cases h

theorem new_ok {memory : SlotMemory} {capacity : BitVec 64} (h : capacity.toNat.isPowerOfTwo)
    (hmemory : memory.Grants capacity) : ∃ ring : SpscRing T, new memory capacity = .ok ring := by
  rw [new_eq h, if_pos hmemory]
  exact ⟨_, rfl⟩

/-- The mask reduces a count of operations modulo the capacity, across a wrap of its index too. -/
theorem slotAt_ofNat (h : ring.capacity.toNat.isPowerOfTwo) (count : ℕ) :
    ring.slotAt (BitVec.ofNat 64 count) = count % ring.capacity.toNat := by
  obtain ⟨k, hk⟩ := h
  have hlt : 2 ^ k < 2 ^ 64 := hk ▸ ring.capacity.isLt
  have hle : k ≤ 64 := ((Nat.pow_lt_pow_iff_right (by decide)).mp hlt).le
  have hmask : ring.mask.toNat = 2 ^ k - 1 := by
    unfold mask
    have := Nat.two_pow_pos k
    bv_omega
  unfold slotAt
  rw [BitVec.toNat_and, BitVec.toNat_ofNat, hmask, Nat.and_two_pow_sub_one_eq_mod, hk,
    Nat.mod_mod_of_dvd _ (Nat.pow_dvd_pow 2 hle)]

theorem ofNat_succ (count : ℕ) : BitVec.ofNat 64 count + 1 = BitVec.ofNat 64 (count + 1) := by
  rw [BitVec.ofNat_add]
  rfl

theorem ofNat_add_sub (count more : ℕ) :
    BitVec.ofNat 64 (count + more) - BitVec.ofNat 64 count = BitVec.ofNat 64 more := by
  rw [BitVec.ofNat_add, BitVec.add_comm, BitVec.add_sub_cancel]

/-! ## Accesses to a slot -/

theorem constructAt_ok {index : Index} (h : ring.slots (ring.slotAt index) = none) (object : T) :
    (constructAt index object).run ring = .ok () { ring with
      slots := Function.update ring.slots (ring.slotAt index) (some object) } := by
  unfold constructAt
  rw [run_get_bind]
  simp only [h]
  rfl

theorem destroyAt_ok {index : Index} {object : T}
    (h : ring.slots (ring.slotAt index) = some object) :
    (destroyAt index).run ring = .ok object { ring with
      slots := Function.update ring.slots (ring.slotAt index) none } := by
  unfold destroyAt
  rw [run_get_bind]
  simp only [h]
  rfl

end SpscRing

/-! ## What the other thread leaves -/

theorem Emplacing.Knows.mono {ring ring' : SpscRing T} {queued queued' : List T}
    {call : Emplacing A T} (h : call.Knows ring queued) (hcap : ring'.capacity = ring.capacity)
    (hwrite : ring'.writeIndex = ring.writeIndex) (hqueued : queued'.length ≤ queued.length) :
    call.Knows ring' queued' := by
  unfold Knows at h ⊢
  rw [hcap, hwrite]
  cases hp : call.point with
  | loadWrite => simpa only [hp] using h
  | loadRead write => simpa only [hp] using h
  | construct write =>
    simp only [hp] at h ⊢
    exact ⟨h.1, h.2.1, by omega⟩
  | storeWrite write =>
    simp only [hp] at h ⊢
    exact ⟨h.1, by omega, h.2.2⟩

theorem Popping.Knows.mono {ring ring' : SpscRing T} {queued : List T} {call : Popping T}
    (h : call.Knows ring queued) (hread : ring'.readIndex = ring.readIndex) (more : List T) :
    call.Knows ring' (queued ++ more) := by
  unfold Knows at h ⊢
  rw [hread]
  cases hp : call.point with
  | loadRead => simpa only [hp] using h
  | loadWrite read => simpa only [hp] using h
  | take read =>
    simp only [hp] at h ⊢
    exact ⟨h.1, by simp [h.2]⟩
  | storeRead read =>
    simp only [hp] at h ⊢
    obtain ⟨rest, hrest⟩ := h.2
    exact ⟨h.1, rest ++ more, by rw [hrest, List.cons_append]⟩

theorem Popping.Knows.taken_le {ring : SpscRing T} {queued : List T} {call : Popping T}
    (h : call.Knows ring queued) : call.taken ≤ queued.length := by
  unfold Knows at h
  unfold taken
  cases hp : call.point with
  | storeRead read =>
    simp only [hp] at h
    obtain ⟨rest, hrest⟩ := h.2
    rw [hrest]
    exact Nat.succ_le_succ (Nat.zero_le _)
  | _ => exact Nat.zero_le _

namespace SpscRing

variable {ring ring' : SpscRing T} {emplacing emplacing' : Option (Emplacing A T)}
  {popping popping' : Option (Popping T)} {popped queued : List T} {capacity : BitVec 64}

/-! ## Steps that leave the ring as it is -/

theorem new_invariant {memory : SlotMemory} (h : new memory capacity = .ok ring) :
    Invariant capacity ring (none : Option (Emplacing A T)) none [] [] := by
  obtain ⟨hcap, rfl⟩ := new_eq_ok h
  exact ⟨rfl, hcap, rfl, rfl, Nat.zero_le _, by simp, by simp, Holds.nil⟩

namespace Invariant

theorem setEmplacing (h : Invariant capacity ring emplacing popping popped queued)
    (hknows : ∀ call ∈ emplacing', call.Knows ring queued)
    (hplaced : emplacing'.elim [] Emplacing.placed = emplacing.elim [] Emplacing.placed) :
    Invariant capacity ring emplacing' popping popped queued :=
  { h with
    pushes := hknows
    slots := by
      rw [hplaced]
      exact h.slots }

theorem setPopping (h : Invariant capacity ring emplacing popping popped queued)
    (hknows : ∀ call ∈ popping', call.Knows ring queued)
    (htaken : popping'.elim 0 Popping.taken = popping.elim 0 Popping.taken) :
    Invariant capacity ring emplacing popping' popped queued :=
  { h with
    pops := hknows
    slots := by
      rw [htaken]
      exact h.slots }

theorem startEmplace (h : Invariant capacity ring (none : Option (Emplacing A T)) popping popped queued)
    (construction : Construction A T) (given : A) :
    Invariant capacity ring (some (.start construction given)) popping popped queued := by
  refine h.setEmplacing ?_ rfl
  rintro call ⟨⟩
  rfl

theorem startPop (h : Invariant capacity ring emplacing none popped queued) (given : T) :
    Invariant capacity ring emplacing (some (.start given)) popped queued := by
  refine h.setPopping ?_ rfl
  rintro call ⟨⟩
  rfl

end Invariant

end SpscRing

end Lob
