import Lob.Spsc.Runs

/-!
# The size of the ring while it is used

A third thread calls `size`, again and again: it loads the write index, the read index and the write
index once more, and the producer and the consumer go on between its loads. The read index is loaded
before the write index that it is subtracted from, so that the difference counts what was queued at the
earlier load and what was pushed since.
-/

namespace Lob

open Basis

variable {A T : Type}

/-! ## `size` -/

inductive SizePoint where
  | loadBefore
  | loadRead
  | loadWrite (read : Index)
  deriving DecidableEq

/-- A step of `size`, which returns its local `used` beside the result. -/
def SpscRing.sizeStep : SizePoint → EStateM Fault (SpscRing T) (SizePoint ⊕ Index × BitVec 64)
  | .loadBefore => do
    let _writeBefore := (← get).writeIndex
    return .inl .loadRead
  | .loadRead => return .inl (.loadWrite (← get).readIndex)
  | .loadWrite read => do
    let write := (← get).writeIndex
    let used := write - read
    let capacity := (← get).capacity
    return .inr (used, if used ≤ capacity then used else capacity)

/-! ## Three threads -/

/-- Two threads on a ring, and the call of a third. -/
structure Observed (A T : Type) where
  threads : Threads A T
  observer : Option SizePoint

inductive ObservedAction (A T : Type) where
  | ring (action : RingAction A T)
  | observe

/-- What the observer does is an event from its second load on. -/
inductive ObservedEvent (A T : Type) where
  | ring (event : RingEvent A T)
  | loadedRead
  | sized (used : Index) (result : BitVec 64)

def ObservedAction.isObserve : ObservedAction A T → Bool
  | .observe => true
  | .ring _ => false

/-- What a call of `size` has computed and returned. -/
def ObservedEvent.size? : ObservedEvent A T → Option (Index × BitVec 64)
  | .sized used result => some (used, result)
  | _ => none

def ObservedEvent.ring? : ObservedEvent A T → Option (RingEvent A T)
  | .ring event => some event
  | _ => none

/-- The events of the producer and the consumer. -/
def ringEvents (events : List (ObservedEvent A T)) : List (RingEvent A T) :=
  events.filterMap ObservedEvent.ring?

namespace Observed

def onThreads {α : Type} (operation : EStateM Fault (Threads A T) α) :
    EStateM Fault (Observed A T) α :=
  zoom Observed.threads (fun s threads => { s with threads := threads }) operation

def observerStep : EStateM Fault (Observed A T) (List (ObservedEvent A T)) := do
  match (← get).observer with
  | none =>
    modify fun s => { s with observer := some .loadBefore }
    return []
  | some point =>
    match ← onThreads (Threads.onRing (SpscRing.sizeStep point)) with
    | .inl point' =>
      modify fun s => { s with observer := some point' }
      return if point = .loadRead then [.loadedRead] else []
    | .inr (used, result) =>
      modify fun s => { s with observer := none }
      return [.sized used result]

def step : ObservedAction A T → EStateM Fault (Observed A T) (List (ObservedEvent A T))
  | .ring action => do
    let events ← onThreads (Threads.step action)
    return events.map .ring
  | .observe => observerStep

def start (ring : SpscRing T) : Observed A T := ⟨Threads.start ring, none⟩

end Observed

/-! ## Counts -/

/-- The values pushed and not popped, an instant after these events. -/
def queuedValues (events : List (RingEvent A T)) : List T :=
  (pushedValues events).drop (poppedValues events).length

/-- What a call of `size` has computed, the events of the other threads being `start` before its second
load and `between` from there to its third. -/
structure SizeBounds (capacity : BitVec 64) (start between : List (RingEvent A T)) (used : Index)
    (result : BitVec 64) : Prop where
  difference : used.toNat + (poppedValues start).length = (pushedValues (start ++ between)).length
  atMost : result ≤ capacity
  lower : ∀ instant, instant <+: between → (queuedValues (start ++ instant)).length ≤ result.toNat
  upper : result.toNat ≤ (queuedValues start).length + (pushedValues between).length
  quiet : pushedValues between = [] → result.toNat = (queuedValues start).length

/-- After these events the ring holds at most its capacity. -/
structure Occupancy (capacity : BitVec 64) (events : List (RingEvent A T)) : Prop where
  popped : (poppedValues events).length ≤ (pushedValues events).length
  held : (queuedValues events).length ≤ capacity.toNat

variable {capacity : BitVec 64}

section Counts

variable {events start between instant : List (RingEvent A T)}

theorem length_queuedValues (events : List (RingEvent A T)) : (queuedValues events).length =
    (pushedValues events).length - (poppedValues events).length := List.length_drop

theorem length_pushedValues_append (events more : List (RingEvent A T)) :
    (pushedValues (events ++ more)).length =
      (pushedValues events).length + (pushedValues more).length := by
  unfold pushedValues
  rw [List.filterMap_append, List.length_append]

theorem length_poppedValues_append (events more : List (RingEvent A T)) :
    (poppedValues (events ++ more)).length =
      (poppedValues events).length + (poppedValues more).length := by
  unfold poppedValues
  rw [List.filterMap_append, List.length_append]

theorem length_pushedValues_le (h : instant <+: between) :
    (pushedValues instant).length ≤ (pushedValues between).length :=
  (h.filterMap RingEvent.pushed?).length_le

/-- The difference of an older read index from the write index. -/
theorem toNat_used (hstart : Occupancy capacity start) (hcapacity : capacity.toNat ≤ 2 ^ 62)
    (hpushes : (pushedValues between).length < 2 ^ 63) :
    (BitVec.ofNat 64 (pushedValues (start ++ between)).length -
        BitVec.ofNat 64 (poppedValues start).length).toNat =
      (queuedValues start).length + (pushedValues between).length := by
  have hpopped := hstart.popped
  have hheld := hstart.held
  have hsum : (pushedValues (start ++ between)).length = (poppedValues start).length +
      ((queuedValues start).length + (pushedValues between).length) := by
    rw [length_pushedValues_append, length_queuedValues]
    omega
  rw [hsum, SpscRing.ofNat_add_sub, BitVec.toNat_ofNat, Nat.mod_eq_of_lt (by omega)]

/-- What is returned is the smaller one of the difference and the capacity. -/
theorem toNat_bounded (used : Index) (capacity : BitVec 64) :
    (if used ≤ capacity then used else capacity).toNat = min used.toNat capacity.toNat := by
  split_ifs with h
  · exact (Nat.min_eq_left h).symm
  · exact (Nat.min_eq_right (Nat.le_of_not_le h)).symm

/-- **The bounds** hold where the ring held at most its capacity all the time. -/
theorem sizeBounds (hcounted : ∀ instant, instant <+: between → Occupancy capacity (start ++ instant))
    (hcapacity : capacity.toNat ≤ 2 ^ 62) (hpushes : (pushedValues between).length < 2 ^ 63) :
    let used := BitVec.ofNat 64 (pushedValues (start ++ between)).length -
      BitVec.ofNat 64 (poppedValues start).length
    SizeBounds capacity start between used (if used ≤ capacity then used else capacity) := by
  intro used
  have hstart : Occupancy capacity start := by
    have hnil := hcounted [] List.nil_prefix
    rwa [List.append_nil] at hnil
  have hused : used.toNat = (queuedValues start).length + (pushedValues between).length :=
    toNat_used hstart hcapacity hpushes
  have hpopped := hstart.popped
  have hheld := hstart.held
  have hqueued := length_queuedValues start
  refine ⟨?_, ?_, fun instant hinstant => ?_, ?_, fun hquiet => ?_⟩
  · rw [hused, length_pushedValues_append]
    omega
  · rw [BitVec.le_def, toNat_bounded]
    exact Nat.min_le_right _ _
  · rw [toNat_bounded, hused]
    refine Nat.le_min.mpr ⟨?_, (hcounted instant hinstant).held⟩
    have hle := length_pushedValues_le hinstant
    rw [length_queuedValues, length_pushedValues_append, length_poppedValues_append]
    omega
  · rw [toNat_bounded, hused]
    exact Nat.min_le_left _ _
  · rw [toNat_bounded, hused, hquiet]
    exact Nat.min_eq_left hheld

end Counts

/-! ## Runs -/

theorem Threads.Invariant.counted {events : List (RingEvent A T)} {s : Threads A T}
    (h : Threads.Invariant capacity events s) :
    Occupancy capacity events ∧
      s.ring.writeIndex = BitVec.ofNat 64 (pushedValues events).length ∧
      s.ring.readIndex = BitVec.ofNat 64 (poppedValues events).length := by
  obtain ⟨queued, hpushed, hring⟩ := h
  have hlength : (pushedValues events).length = (poppedValues events).length + queued.length := by
    rw [hpushed, List.length_append]
  refine ⟨⟨by omega, ?_⟩, ?_, hring.readIndex⟩
  · rw [length_queuedValues, hlength, Nat.add_sub_cancel_left, ← hring.size]
    exact hring.fits
  · rw [hring.writeIndex, hlength]

/-- A call of `size` that returns has loaded the read index, and only the other threads came between
that load and the last one. Fewer than 2^63 pushes among them leave the bounds. -/
def SizeSound (capacity : BitVec 64) (before : List (ObservedEvent A T)) : ObservedEvent A T → Prop
  | .sized used result => ∃ (earlier : List (ObservedEvent A T)) (between : List (RingEvent A T)),
    before = earlier ++ .loadedRead :: between.map .ring ∧
      ((pushedValues between).length < 2 ^ 63 →
        SizeBounds capacity (ringEvents earlier) between used result)
  | _ => True

namespace Observed

theorem ringEvents_append (events more : List (ObservedEvent A T)) :
    ringEvents (events ++ more) = ringEvents events ++ ringEvents more := List.filterMap_append

theorem ringEvents_map (events : List (RingEvent A T)) :
    ringEvents (events.map ObservedEvent.ring) = events := by
  unfold ringEvents
  rw [List.filterMap_map]
  exact List.filterMap_some

/-- What the run so far says of the ring and of the observer's call. -/
structure Invariant (capacity : BitVec 64) (events : List (ObservedEvent A T)) (s : Observed A T) :
    Prop where
  threads : s.threads.Invariant capacity (ringEvents events)
  counted : ∀ instant, instant <+: ringEvents events → Occupancy capacity instant
  loaded : ∀ read, s.observer = some (.loadWrite read) →
    ∃ (earlier : List (ObservedEvent A T)) (between : List (RingEvent A T)),
      events = earlier ++ .loadedRead :: between.map .ring ∧
        read = BitVec.ofNat 64 (poppedValues (ringEvents earlier)).length
  sized : Justified (SizeSound capacity) events

variable {s : Observed A T} {events : List (ObservedEvent A T)}

theorem start_invariant {memory : SlotMemory} {ring : SpscRing T}
    (h : SpscRing.new memory capacity = .ok ring) :
    Invariant capacity ([] : List (ObservedEvent A T)) (start ring) where
  threads := Threads.start_invariant h
  counted instant hinstant := by
    rw [List.prefix_nil.mp hinstant]
    exact (Threads.start_invariant h).counted.1
  loaded read hread := by cases hread
  sized := justified_nil _

/-- The events of the other threads. -/
theorem Invariant.ring (h : Invariant capacity events s) (action : RingAction A T) :
    ∃ events' s', (step (.ring action)).run s = .ok events' s' ∧
      Invariant capacity (events ++ events') s' := by
  obtain ⟨events', threads', run, hthreads, heffect⟩ := Threads.step_ok h.threads action
  have run' : (onThreads (Threads.step action)).run s = .ok events' { s with threads := threads' } :=
    zoom_ok run
  have hevents : ringEvents (events ++ events'.map .ring) = ringEvents events ++ events' := by
    rw [ringEvents_append, ringEvents_map]
  refine ⟨events'.map .ring, { s with threads := threads' }, run_bind_ok run', ?_, ?_, ?_, ?_⟩
  · rw [hevents]
    exact hthreads
  · rw [hevents]
    intro instant hinstant
    rcases heffect.returns with rfl | ⟨event, rfl, _⟩
    · rw [List.append_nil] at hinstant
      exact h.counted instant hinstant
    · rcases List.prefix_concat_iff.mp hinstant with rfl | hold
      · exact hthreads.counted.1
      · exact h.counted instant hold
  · intro read hread
    obtain ⟨earlier, between, rfl, hpopped⟩ := h.loaded read hread
    refine ⟨earlier, between ++ events', ?_, hpopped⟩
    rw [List.map_append, ← List.cons_append, ← List.append_assoc]
  · refine h.sized.append fun event hevent before => ?_
    obtain ⟨_, _, rfl⟩ := List.mem_map.mp hevent
    trivial

/-- What the observer does before its last load. -/
theorem Invariant.quiet (h : Invariant capacity events s) {point : SizePoint}
    (hpoint : ∀ read, point ≠ .loadWrite read) :
    Invariant capacity events { s with observer := some point } where
  threads := h.threads
  counted := h.counted
  loaded read hread := absurd (Option.some.inj hread) (hpoint read)
  sized := h.sized

/-- The second load. -/
theorem Invariant.loadRead (h : Invariant capacity events s) :
    Invariant capacity (events ++ [.loadedRead])
      { s with observer := some (.loadWrite s.threads.ring.readIndex) } := by
  have hevents : ringEvents (events ++ [.loadedRead]) = ringEvents events := by
    rw [ringEvents_append]
    exact List.append_nil _
  refine ⟨?_, ?_, fun read hread => ⟨events, [], rfl, ?_⟩, h.sized.concat trivial⟩
  · rw [hevents]
    exact h.threads
  · rw [hevents]
    exact h.counted
  · cases hread
    exact h.threads.counted.2.2

/-- The third load. -/
theorem Invariant.loadWrite (h : Invariant capacity events s) (hcapacity : capacity.toNat ≤ 2 ^ 62)
    {read : Index} (hread : s.observer = some (.loadWrite read)) :
    let used := s.threads.ring.writeIndex - read
    Invariant capacity (events ++ [.sized used (if used ≤ capacity then used else capacity)])
      { s with observer := none } := by
  intro used
  have hevents (event : ObservedEvent A T) (hring : event.ring? = none) :
      ringEvents (events ++ [event]) = ringEvents events := by
    rw [ringEvents_append]
    show ringEvents events ++ List.filterMap _ _ = _
    rw [List.filterMap_cons_none hring]
    exact List.append_nil _
  refine ⟨?_, ?_, (fun read hread => by cases hread), h.sized.concat ?_⟩
  · rw [hevents _ rfl]
    exact h.threads
  · rw [hevents _ rfl]
    exact h.counted
  · obtain ⟨earlier, between, rfl, hpopped⟩ := h.loaded read hread
    refine ⟨earlier, between, rfl, fun hpushes => ?_⟩
    have hring : ringEvents (earlier ++ .loadedRead :: between.map .ring) =
        ringEvents earlier ++ between := by
      rw [ringEvents_append]
      exact congrArg _ (ringEvents_map between)
    have hwrite := h.threads.counted.2.1
    have hcounted := h.counted
    rw [hring] at hwrite hcounted
    have hbounds := sizeBounds (fun instant hinstant => hcounted _
      (List.prefix_append_right_inj _ |>.mpr hinstant)) hcapacity hpushes
    rw [← hwrite, ← hpopped] at hbounds
    exact hbounds

theorem Invariant.observe (h : Invariant capacity events s) (hcapacity : capacity.toNat ≤ 2 ^ 62) :
    ∃ events' s', (step .observe).run s = .ok events' s' ∧
      Invariant capacity (events ++ events') s' := by
  have hsize : s.threads.ring.capacity = capacity := by
    obtain ⟨_, _, hring⟩ := h.threads
    exact hring.size
  obtain ⟨threads, observer⟩ := s
  cases observer with
  | none =>
    refine ⟨[], _, rfl, ?_⟩
    rw [List.append_nil]
    exact h.quiet (by simp)
  | some point =>
    cases point with
    | loadBefore =>
      refine ⟨[], _, rfl, ?_⟩
      rw [List.append_nil]
      exact h.quiet (by simp)
    | loadRead => exact ⟨_, _, rfl, h.loadRead⟩
    | loadWrite read =>
      have hnext := h.loadWrite hcapacity rfl
      rw [← hsize] at hnext ⊢
      exact ⟨_, _, rfl, hnext⟩

/-- **One action.** -/
theorem step_preserves (hcapacity : capacity.toNat ≤ 2 ^ 62) :
    Preserves (step (A := A) (T := T)) (Invariant capacity) := by
  intro events s action h
  cases action with
  | ring action => exact h.ring action
  | observe => exact h.observe hcapacity

/-- The steps that the call of `size` in progress has taken. -/
def depth (s : Observed A T) : ℕ :=
  match s.observer with
  | none => 0
  | some .loadBefore => 1
  | some .loadRead => 2
  | some (.loadWrite _) => 3

theorem depth_lt (s : Observed A T) : s.depth < 4 := by
  unfold depth
  cases s.observer with
  | none => simp
  | some point => cases point <;> simp

theorem ring_depth {action : RingAction A T} {events' : List (ObservedEvent A T)} {s' : Observed A T}
    (run : (step (.ring action)).run s = .ok events' s') : s'.depth = s.depth := by
  obtain ⟨_, s₁, run₁, run⟩ := of_run_bind_ok run
  obtain ⟨_, _, rfl⟩ := of_zoom_ok run₁
  cases run
  rfl

/-- A step of the observer goes on to the next load, or returns. -/
theorem observe_depth {events' : List (ObservedEvent A T)} {s' : Observed A T}
    (run : (step .observe).run s = .ok events' s') :
    1 + s.depth ≤ 4 * events'.countP (fun event => event.size?.isSome) + s'.depth := by
  obtain ⟨threads, observer⟩ := s
  cases observer with
  | none =>
    cases run
    exact le_rfl
  | some point =>
    cases point with
    | loadBefore =>
      cases run
      exact le_rfl
    | loadRead =>
      cases run
      exact le_rfl
    | loadWrite read =>
      cases run
      exact le_rfl

theorem step_returning (hcapacity : capacity.toNat ≤ 2 ^ 62) :
    Returning (step (A := A) (T := T)) (Invariant capacity) ObservedAction.isObserve
      (fun event => event.size?.isSome) 4 depth where
  depth_lt _ := depth_lt _
  step := by
    intro before s action h
    obtain ⟨events', s', run, h'⟩ := step_preserves hcapacity action h
    refine ⟨events', s', run, h', ?_⟩
    cases action with
    | ring action =>
      rw [ring_depth run]
      exact Nat.le_trans (Nat.le_of_eq (Nat.zero_add _)) (Nat.le_add_left _ _)
    | observe => exact observe_depth run

/-- Where no other step comes between, a call returns the number of queued values and leaves everything
as it was. -/
theorem Invariant.observe_alone (h : Invariant capacity events s) (hcapacity : capacity.toNat ≤ 2 ^ 62)
    (hidle : s.observer = none) : ∃ used result,
      (trace step (List.replicate 4 .observe)).run s = .ok [.loadedRead, .sized used result] s ∧
        SizeBounds capacity (ringEvents events) [] used result := by
  obtain ⟨hcounted, hwrite, hread⟩ := h.threads.counted
  have hsize : s.threads.ring.capacity = capacity := by
    obtain ⟨_, _, hring⟩ := h.threads
    exact hring.size
  have hnow : ∀ instant : List (RingEvent A T), instant <+: [] →
      Occupancy capacity (ringEvents events ++ instant) := by
    intro instant hinstant
    rw [List.prefix_nil.mp hinstant, List.append_nil]
    exact hcounted
  have hbounds := sizeBounds hnow hcapacity (by simp [pushedValues])
  rw [List.append_nil, ← hwrite, ← hread] at hbounds
  obtain ⟨threads, observer⟩ := s
  cases hidle
  subst hsize
  exact ⟨_, _, rfl, hbounds⟩

/-- **`size` is a sound bound under every interleaving** of a producer, a consumer and an observer: in
every run its calls return what `SizeBounds` says, and at the end of the run, as at any instant, the
indexes differ by the number of queued values. From there a call returns within four steps of the
observer, whatever the others do, and by itself it returns the exact number. -/
theorem runs_size {capacity : BitVec 64} {memory : SlotMemory} (hpower : capacity.toNat.isPowerOfTwo)
    (hmemory : memory.Grants capacity) (hcapacity : capacity.toNat ≤ 2 ^ 62)
    (actions : List (ObservedAction A T)) :
    ∃ ring events s, SpscRing.new memory capacity = .ok ring ∧
      (trace step actions).run (start ring) = .ok events s ∧
      (s.threads.ring.writeIndex - s.threads.ring.readIndex).toNat =
        (queuedValues (ringEvents events)).length ∧
      Justified (SizeSound capacity) events ∧
      (∀ more : List (ObservedAction A T), 4 ≤ more.countP ObservedAction.isObserve →
        ∃ events' s', (trace step more).run s = .ok events' s' ∧
          Justified (SizeSound capacity) (events ++ events') ∧
          ∃ used result, ObservedEvent.sized used result ∈ events') ∧
      (s.observer = none → ∃ used result,
        (trace step (List.replicate 4 .observe)).run s = .ok [.loadedRead, .sized used result] s ∧
          SizeBounds capacity (ringEvents events) [] used result) := by
  obtain ⟨ring, hring⟩ := SpscRing.new_ok (T := T) hpower hmemory
  have hpreserves : Preserves (step (A := A) (T := T)) (Invariant capacity) :=
    step_preserves hcapacity
  obtain ⟨events, s, run, h⟩ := hpreserves.trace actions (start_invariant hring)
  obtain ⟨hcounted, hwrite, hread⟩ := h.threads.counted
  have hused := toNat_used hcounted hcapacity (show (pushedValues []).length < 2 ^ 63 by
    simp [pushedValues])
  rw [List.append_nil, ← hwrite, ← hread] at hused
  refine ⟨ring, events, s, hring, run, hused, h.sized, fun more hmore => ?_,
    h.observe_alone hcapacity⟩
  obtain ⟨events', s', run', event, hmem, hsized⟩ := (step_returning hcapacity).returns h hmore
  obtain ⟨_, _, run'', h'⟩ := hpreserves.trace more h
  rw [run'] at run''
  cases run''
  refine ⟨events', s', run', h'.sized, ?_⟩
  cases event with
  | sized used result => exact ⟨used, result, hmem⟩
  | _ => cases hsized

/-- A push and a pop between the second and the third load: one value is queued before and after them,
and two is returned. Then a call by itself returns one. -/
theorem runs_size_two :
    let push (n : ℕ) : List (ObservedAction ℕ ℕ) :=
      List.replicate 5 (.ring (.producer (.emplace copyOf n)))
    let pop : List (ObservedAction ℕ ℕ) := List.replicate 5 (.ring (.consumer (.tryPop 0)))
    let actions := push 7 ++ List.replicate 3 .observe ++ push 8 ++ pop ++ [.observe]
    ∃ ring events s, SpscRing.new ⟨8, 1024, true⟩ 2 = .ok ring ∧
      (trace step actions).run (start ring) = .ok events s ∧
      events.filterMap ObservedEvent.size? = [(2, 2)] ∧ Justified (SizeSound 2) events ∧
      ∃ used, (trace step (List.replicate 4 .observe)).run s = .ok [.loadedRead, .sized used 1] s ∧
        SizeBounds 2 (ringEvents events) [] used 1 := by
  intro push pop actions
  obtain ⟨ring, events, s, hring, run, _, hsized, _, halone⟩ :=
    @runs_size ℕ ℕ 2 ⟨8, 1024, true⟩ ⟨1, rfl⟩ (by decide) (by decide) actions
  obtain ⟨_, rfl⟩ := SpscRing.new_eq_ok hring
  have hparts : (events.filterMap ObservedEvent.size?, s.observer,
      (queuedValues (ringEvents events)).length) = ([(2, 2)], none, 1) :=
    of_evaluate run (fun events s => (events.filterMap ObservedEvent.size?, s.observer,
      (queuedValues (ringEvents events)).length)) (by decide +kernel)
  obtain ⟨hsizes, hidle, hqueued⟩ := by simpa only [Prod.mk.injEq] using hparts
  obtain ⟨used, result, run', hbounds⟩ := halone hidle
  obtain rfl : result = 1 := BitVec.eq_of_toNat_eq ((hbounds.quiet rfl).trans hqueued)
  exact ⟨_, events, s, rfl, run, hsizes, hsized, used, run', hbounds⟩

end Observed

end Lob
