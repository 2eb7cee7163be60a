import Lob.Spsc.Protocol

/-!
# The steps of the ring

One theorem for each call: from a ring and calls in progress that keep the invariant a step does not
fail, and what it does is one of a few things, with the invariant after it.
-/

namespace Lob

open Basis SpscRing

variable {A T : Type} {capacity : BitVec 64} {ring : SpscRing T} {emplacing : Option (Emplacing A T)}
  {popping : Option (Popping T)} {popped queued : List T} {call : Emplacing A T} {write : Index}

/-- The call has changed the ring. -/
def Emplacing.Committed (call : Emplacing A T) : Prop := ∃ write, call.point = .storeWrite write

def Popping.Committed (call : Popping T) : Prop := ∃ read, call.point = .storeRead read

/-! ## `emplace` -/

/-- What a step of `emplace` can do. -/
inductive Emplacing.Stepped (capacity : BitVec 64) (ring : SpscRing T) (call : Emplacing A T)
    (popping : Option (Popping T))
    (popped queued : List T) : Emplacing A T ⊕ EmplaceResult × A → SpscRing T → Prop
  | goesOn {call' : Emplacing A T} {ring' : SpscRing T} :
    Invariant capacity ring' (some call') popping popped queued → ¬call.Committed →
    (call'.Committed ∨ ring' = ring) → call'.construction = call.construction →
    call'.given = call.given → Stepped capacity ring call popping popped queued (.inl call') ring'
  | pushed {object : T} {left : A} {ring' : SpscRing T} :
    call.construction call.given = (some object, left) →
    Invariant capacity ring' (none : Option (Emplacing A T)) popping popped (queued ++ [object]) →
    Stepped capacity ring call popping popped queued (.inr (.pushed, left)) ring'
  | full : ¬call.Committed →
    Invariant capacity ring (none : Option (Emplacing A T)) popping popped queued →
    Stepped capacity ring call popping popped queued (.inr (.full, call.given)) ring
  | threw {left : A} : ¬call.Committed → call.construction call.given = (none, left) →
    Invariant capacity ring (none : Option (Emplacing A T)) popping popped queued →
    Stepped capacity ring call popping popped queued (.inr (.threw, left)) ring

namespace SpscRing.Invariant

/-- The ring is full when the queue is as long as the capacity: the difference of the indexes is
exact, since it is below 2^64. -/
theorem full_iff (h : Invariant capacity ring emplacing popping popped queued) :
    ring.writeIndex - ring.readIndex = ring.capacity ↔ queued.length = ring.capacity.toNat := by
  rw [h.writeIndex, h.readIndex, ofNat_add_sub, ← BitVec.toNat_inj, BitVec.toNat_ofNat,
    Nat.mod_eq_of_lt (lt_of_le_of_lt h.fits ring.capacity.isLt)]

/-- The indexes are equal when the queue is empty. -/
theorem empty_iff (h : Invariant capacity ring emplacing popping popped queued) :
    ring.readIndex = ring.writeIndex ↔ queued = [] := by
  rw [← List.length_eq_zero_iff, eq_comm, ← sub_eq_zero, h.writeIndex, h.readIndex, ofNat_add_sub,
    ← BitVec.toNat_inj, BitVec.toNat_ofNat,
    Nat.mod_eq_of_lt (lt_of_le_of_lt h.fits ring.capacity.isLt)]
  rfl

theorem taken_le (h : Invariant capacity ring emplacing popping popped queued) :
    popping.elim 0 Popping.taken ≤ queued.length := by
  cases popping with
  | none => exact Nat.zero_le _
  | some call => exact (h.pops call rfl).taken_le

/-- The construction in the free slot at the end of the window. -/
theorem construct (h : Invariant capacity ring (some call) popping popped queued)
    (hp : call.point = .construct write) {object : T} {left : A}
    (hmake : call.construction call.given = (some object, left)) :
    ∃ ring', (constructAt write object).run ring = .ok () ring' ∧
      Invariant capacity ring' (some { call with argument := left, point := .storeWrite write }) popping popped
        queued := by
  have hknows := h.pushes call rfl
  unfold Emplacing.Knows at hknows
  simp only [hp] at hknows
  obtain ⟨-, hwrite, hroom⟩ := hknows
  have hslots := h.slots
  rw [show (some call).elim [] Emplacing.placed = [] by
    simp only [Option.elim_some, Emplacing.placed, hp], List.append_nil] at hslots
  have htaken := h.taken_le
  have hlength : (queued.drop (popping.elim 0 Popping.taken)).length =
      queued.length - popping.elim 0 Popping.taken := List.length_drop
  have hslot : ring.slotAt write = (popped.length + popping.elim 0 Popping.taken +
      (queued.drop (popping.elim 0 Popping.taken)).length) % ring.capacity.toNat := by
    rw [hwrite, h.writeIndex, slotAt_ofNat h.powerOfTwo, hlength]
    congr 1
    omega
  have hfree : ring.slots (ring.slotAt write) = none := by
    rw [hslot]
    exact hslots.free (by omega)
  refine ⟨_, constructAt_ok hfree object, h.size, h.powerOfTwo, h.writeIndex, h.readIndex, h.fits,
    ?_, ?_, ?_⟩
  · rintro call' ⟨⟩
    exact ⟨hwrite, hroom, object, hmake⟩
  · intro call' hcall'
    rw [← List.append_nil queued]
    exact (h.pops call' hcall').mono rfl []
  · rw [hslot]
    show Holds _ _ _ (_ ++ (call.construction call.given).1.toList)
    rw [hmake]
    exact hslots.push (by omega) object

/-- The publication: what was placed is queued. -/
theorem publish (h : Invariant capacity ring (some call) popping popped queued)
    (hp : call.point = .storeWrite write) :
    ∃ object, call.construction call.given = (some object, call.argument) ∧
      Invariant capacity { ring with writeIndex := write + 1 } (none : Option (Emplacing A T)) popping popped
        (queued ++ [object]) := by
  have hknows := h.pushes call rfl
  unfold Emplacing.Knows at hknows
  simp only [hp] at hknows
  obtain ⟨hwrite, hroom, object, hmake⟩ := hknows
  have hslots := h.slots
  rw [show (some call).elim [] Emplacing.placed = [object] by
    simp only [Option.elim_some, Emplacing.placed, hp, hmake, Option.toList_some]] at hslots
  refine ⟨object, hmake, h.size, h.powerOfTwo, ?_, h.readIndex, ?_, by simp, ?_, ?_⟩
  · show write + 1 = _
    rw [hwrite, h.writeIndex, ofNat_succ, List.length_append, List.length_singleton, Nat.add_assoc]
  · rw [List.length_append]
    exact hroom
  · intro call' hcall'
    exact (h.pops call' hcall').mono rfl [object]
  · rw [List.drop_append_of_le_length h.taken_le]
    simpa using hslots

theorem emplace_step (h : Invariant capacity ring (some call) popping popped queued) :
    ∃ next ring', call.step.run ring = .ok next ring' ∧
      call.Stepped capacity ring popping popped queued next ring' := by
  have hknows := h.pushes call rfl
  obtain ⟨construction, given, argument, point⟩ := call
  cases point with
  | loadWrite =>
    refine ⟨_, _, rfl, .goesOn (h.setEmplacing ?_ rfl) ?_ (.inr rfl) rfl rfl⟩
    · rintro call' ⟨⟩
      exact ⟨hknows, rfl⟩
    · rintro ⟨_, ⟨⟩⟩
  | loadRead write =>
    obtain ⟨hargument, hwrite⟩ := hknows
    have hidle : ¬(⟨construction, given, argument, .loadRead write⟩ : Emplacing A T).Committed := by
      rintro ⟨_, ⟨⟩⟩
    have hfull := h.full_iff
    rw [← hwrite] at hfull
    by_cases hc : write - ring.readIndex = ring.capacity
    · refine ⟨_, _, Emplacing.run_full hc, ?_⟩
      rw [show argument = given from hargument]
      exact .full hidle (h.setEmplacing (by simp) rfl)
    · refine ⟨_, _, Emplacing.run_room hc, ?_⟩
      refine .goesOn (h.setEmplacing ?_ rfl) hidle (.inr rfl) rfl rfl
      rintro call' ⟨⟩
      exact ⟨hargument, hwrite, lt_of_le_of_ne h.fits fun hq => hc (hfull.mpr hq)⟩
  | construct write =>
    obtain ⟨hargument, -, -⟩ := hknows
    have hidle : ¬(⟨construction, given, argument, .construct write⟩ : Emplacing A T).Committed := by
      rintro ⟨_, ⟨⟩⟩
    rw [show argument = given from hargument] at h hidle ⊢
    cases hmake : construction given with
    | mk made left =>
      cases made with
      | none =>
        exact ⟨_, _, Emplacing.run_threw hmake, .threw hidle hmake (h.setEmplacing (by simp) rfl)⟩
      | some object =>
        obtain ⟨ring', run, hnext⟩ := h.construct rfl hmake
        exact ⟨_, _, Emplacing.run_constructed hmake run,
          .goesOn hnext hidle (.inl ⟨write, rfl⟩) rfl rfl⟩
  | storeWrite write =>
    obtain ⟨object, hmake, hnext⟩ := h.publish rfl
    exact ⟨_, _, rfl, .pushed hmake hnext⟩

end SpscRing.Invariant

/-! ## `tryPop` -/

/-- What a step of `tryPop` can do. -/
inductive Popping.Stepped (capacity : BitVec 64) (ring : SpscRing T) (emplacing : Option (Emplacing A T))
    (call : Popping T)
    (popped queued : List T) : Popping T ⊕ Bool × T → SpscRing T → Prop
  | goesOn {call' : Popping T} {ring' : SpscRing T} :
    Invariant capacity ring' emplacing (some call') popped queued → ¬call.Committed →
    (call'.Committed ∨ ring' = ring) → call'.given = call.given →
    Stepped capacity ring emplacing call popped queued (.inl call') ring'
  | popped {object : T} {rest : List T} {ring' : SpscRing T} :
    queued = object :: rest →
    Invariant capacity ring' emplacing none (popped ++ [object]) rest →
    Stepped capacity ring emplacing call popped queued (.inr (true, object)) ring'
  | empty : ¬call.Committed → queued = [] → Invariant capacity ring emplacing none popped queued →
    Stepped capacity ring emplacing call popped queued (.inr (false, call.given)) ring

namespace SpscRing.Invariant

variable {pop : Popping T} {read : Index}

/-- The oldest object of a window is in its first slot. -/
theorem destroyAt_front {count : ℕ} {object : T} (hcap : ring.capacity.toNat.isPowerOfTwo)
    (hslots : Holds ring.capacity.toNat ring.slots count (object :: queued)) :
    ∃ slots, (destroyAt (BitVec.ofNat 64 count)).run ring = .ok object { ring with slots := slots } ∧
      Holds ring.capacity.toNat slots (count + 1) queued := by
  have hslot := slotAt_ofNat hcap count
  have hlive : ring.slots (ring.slotAt (BitVec.ofNat 64 count)) = some object := by
    rw [hslot]
    exact hslots.front
  refine ⟨_, destroyAt_ok hlive, ?_⟩
  rw [hslot]
  exact hslots.pop

/-- The move out of the oldest slot. -/
theorem take (h : Invariant capacity ring emplacing (some pop) popped queued)
    (hp : pop.point = .take read) :
    ∃ object ring', (destroyAt read).run ring = .ok object ring' ∧
      Invariant capacity ring' emplacing (some { pop with out := object, point := .storeRead read }) popped
        queued := by
  have hknows := h.pops pop rfl
  unfold Popping.Knows at hknows
  simp only [hp] at hknows
  obtain ⟨hread, hne⟩ := hknows
  obtain ⟨object, rest, rfl⟩ := List.exists_cons_of_ne_nil hne
  have hslots := h.slots
  rw [show (some pop).elim 0 Popping.taken = 0 by
    simp only [Option.elim_some, Popping.taken, hp]] at hslots
  rw [hread, h.readIndex]
  obtain ⟨slots, run, hslots'⟩ := destroyAt_front h.powerOfTwo hslots
  refine ⟨object, _, run, h.size, h.powerOfTwo, h.writeIndex, h.readIndex, h.fits, ?_, ?_, hslots'⟩
  · intro call hcall
    exact (h.pushes call hcall).mono rfl rfl le_rfl
  · rintro call ⟨⟩
    exact ⟨h.readIndex.symm, rest, rfl⟩

/-- The release: what was taken is popped. -/
theorem release (h : Invariant capacity ring emplacing (some pop) popped queued)
    (hp : pop.point = .storeRead read) :
    ∃ rest, queued = pop.out :: rest ∧
      Invariant capacity { ring with readIndex := read + 1 } emplacing none (popped ++ [pop.out]) rest := by
  have hknows := h.pops pop rfl
  unfold Popping.Knows at hknows
  simp only [hp] at hknows
  obtain ⟨hread, rest, rfl⟩ := hknows
  have hslots := h.slots
  rw [show (some pop).elim 0 Popping.taken = 1 by
    simp only [Option.elim_some, Popping.taken, hp]] at hslots
  have hfits : rest.length + 1 ≤ ring.capacity.toNat := h.fits
  have hlength : (popped ++ [pop.out]).length = popped.length + 1 := List.length_append
  refine ⟨rest, rfl, h.size, h.powerOfTwo, ?_, ?_, Nat.le_of_succ_le hfits, ?_, by simp, ?_⟩
  · show ring.writeIndex = _
    rw [h.writeIndex, hlength, List.length_cons]
    congr 1
    omega
  · show read + 1 = _
    rw [hread, h.readIndex, ofNat_succ, hlength]
  · intro call hcall
    exact (h.pushes call hcall).mono rfl rfl (Nat.le_succ _)
  · rw [hlength]
    exact hslots

theorem pop_step (h : Invariant capacity ring emplacing (some pop) popped queued) :
    ∃ next ring', pop.step.run ring = .ok next ring' ∧
      pop.Stepped capacity ring emplacing popped queued next ring' := by
  have hknows := h.pops pop rfl
  obtain ⟨given, out, point⟩ := pop
  cases point with
  | loadRead =>
    refine ⟨_, _, rfl, .goesOn (h.setPopping ?_ rfl) ?_ (.inr rfl) rfl⟩
    · rintro call ⟨⟩
      exact ⟨hknows, rfl⟩
    · rintro ⟨_, ⟨⟩⟩
  | loadWrite read =>
    obtain ⟨hout, hread⟩ := hknows
    have hidle : ¬(⟨given, out, .loadWrite read⟩ : Popping T).Committed := by
      rintro ⟨_, ⟨⟩⟩
    have hempty := h.empty_iff
    rw [← hread] at hempty
    by_cases hc : read = ring.writeIndex
    · refine ⟨_, _, Popping.run_empty hc, ?_⟩
      rw [show out = given from hout]
      exact .empty hidle (hempty.mp hc) (h.setPopping (by simp) rfl)
    · refine ⟨_, _, Popping.run_nonempty hc, ?_⟩
      refine .goesOn (h.setPopping ?_ rfl) hidle (.inr rfl) rfl
      rintro call ⟨⟩
      exact ⟨hread, fun hq => hc (hempty.mpr hq)⟩
  | take read =>
    obtain ⟨object, ring', run, hnext⟩ := h.take rfl
    refine ⟨_, _, Popping.run_take run, .goesOn hnext ?_ (.inl ⟨read, rfl⟩) rfl⟩
    rintro ⟨_, ⟨⟩⟩
  | storeRead read =>
    obtain ⟨rest, hrest, hnext⟩ := h.release rfl
    exact ⟨_, _, rfl, .popped hrest hnext⟩

/-! ## Queries and the destructor -/

theorem fullStep_run (ring : SpscRing T) (point : QueryPoint) :
    ∃ next, (fullStep point).run ring = .ok next ring := by
  cases point <;> exact ⟨_, rfl⟩

theorem emptyStep_run (ring : SpscRing T) (point : QueryPoint) :
    ∃ next, (emptyStep point).run ring = .ok next ring := by
  cases point <;> exact ⟨_, rfl⟩

/-- The loop destroys the queued objects, oldest first. -/
theorem clearLoop_run (queued : List T) :
    ∀ (ring : SpscRing T) (count : ℕ), ring.capacity.toNat.isPowerOfTwo →
      Holds ring.capacity.toNat ring.slots count queued →
      ∃ ring', (clearLoop (BitVec.ofNat 64 (count + queued.length)) (queued.length + 1)
        (BitVec.ofNat 64 count)).run ring = .ok queued ring' ∧ ∀ i, ring'.slots i = none := by
  induction queued with
  | nil =>
    intro ring count _ hslots
    refine ⟨ring, ?_, hslots.slots_eq_none⟩
    unfold clearLoop
    rw [if_neg (by simp)]
    rfl
  | cons object queued ih =>
    intro ring count hcap hslots
    have hlt : queued.length + 1 < 2 ^ 64 := lt_of_le_of_lt hslots.fits ring.capacity.isLt
    have hne : BitVec.ofNat 64 count ≠ BitVec.ofNat 64 (count + (queued.length + 1)) := by
      intro heq
      have hzero := sub_eq_zero.mpr heq.symm
      rw [ofNat_add_sub, ← BitVec.toNat_inj, BitVec.toNat_ofNat, Nat.mod_eq_of_lt hlt] at hzero
      cases hzero
    obtain ⟨slots, run₁, hslots₁⟩ := destroyAt_front hcap hslots
    obtain ⟨ring', run', hnone⟩ := ih { ring with slots := slots } (count + 1) hcap hslots₁
    rw [Nat.add_right_comm, Nat.add_assoc] at run'
    refine ⟨ring', ?_, hnone⟩
    rw [List.length_cons]
    unfold clearLoop
    rw [if_pos hne, run_bind_ok run₁, ofNat_succ, run_bind_ok run']
    rfl

/-- **The destructor.** -/
theorem clear_run
    (h : Invariant capacity ring (none : Option (Emplacing A T)) (none : Option (Popping T))
      popped queued) :
    ∃ ring', clear.run ring = .ok queued ring' ∧ ∀ i, ring'.slots i = none := by
  have hlt := lt_of_le_of_lt h.fits ring.capacity.isLt
  have hslots := h.slots
  simp only [Option.elim_none, Nat.add_zero, List.drop_zero, List.append_nil] at hslots
  obtain ⟨ring', run, hnone⟩ := clearLoop_run queued ring popped.length h.powerOfTwo hslots
  refine ⟨ring', ?_, hnone⟩
  show (clearLoop ring.writeIndex ((ring.writeIndex - ring.readIndex).toNat + 1)
    ring.readIndex).run ring = _
  rw [h.writeIndex, h.readIndex, ofNat_add_sub, BitVec.toNat_ofNat, Nat.mod_eq_of_lt hlt]
  exact run

end SpscRing.Invariant

end Lob
