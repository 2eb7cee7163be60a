import Lob.Spsc.Threads
import Lob.Spsc.Waiting

/-!
# Runs of two threads on a ring

In every state that a run reaches, the values pushed are the values popped followed by the ones in
the queue. No access to a slot goes wrong, a call that is refused leaves no trace, every call returns
within five steps of its own thread, and the destructor destroys what is in the queue.
-/

namespace Lob

open Basis

variable {A T : Type}

/-! ## The invariant -/

/-- The ring keeps its invariant, with the values that the events so far say. -/
def Threads.Invariant (capacity : BitVec 64) (events : List (RingEvent A T)) (s : Threads A T) : Prop :=
  ∃ queued, pushedValues events = poppedValues events ++ queued ∧
    s.ring.Invariant capacity s.producer.call? s.consumer.call? (poppedValues events) queued

/-- The call in progress of a thread has changed the ring. -/
def Threads.Committed (s : Threads A T) : Thread → Prop
  | .producer => ∃ call ∈ s.producer.call?, call.Committed
  | .consumer => ∃ call ∈ s.consumer.call?, call.Committed

/-- A refusal leaves the argument as it was given. -/
def RingEvent.KeepsArgument : RingEvent A T → Prop
  | .emplaced _ given result left => result = .full → left = given
  | .popped given result out => result = false → out = given
  | _ => True

/-- The first call of `thread` to return. -/
def Threads.firstReturn (thread : Thread) (events : List (RingEvent A T)) : Option (RingEvent A T) :=
  events.find? fun event => event.thread = thread

theorem Threads.firstReturn_append (thread : Thread) (events more : List (RingEvent A T)) :
    firstReturn thread (events ++ more) =
      (firstReturn thread events).or (firstReturn thread more) :=
  List.find?_append

/-- The call in progress of `thread` has changed the ring, or it has returned and succeeded. -/
def Threads.Succeeding (s : Threads A T) (thread : Thread) (events : List (RingEvent A T)) : Prop :=
  (firstReturn thread events = none ∧ s.Committed thread) ∨
    ∃ event, firstReturn thread events = some event ∧ event.succeeded

/-- A thread changes only its own call. -/
def Threads.Frame (s s' : Threads A T) : Thread → Prop
  | .producer => s'.consumer = s.consumer
  | .consumer => s'.producer = s.producer

/-- The steps that the call in progress of a thread has taken. -/
def Threads.depth (s : Threads A T) : Thread → ℕ
  | .producer =>
    match s.producer with
    | .idle => 0
    | .emplacing call => 4 - call.stepsLeft
    | .full .loadOwn => 1
    | .full (.loadOther _) => 2
  | .consumer =>
    match s.consumer with
    | .idle => 0
    | .popping call => 4 - call.stepsLeft
    | .empty .loadOwn => 1
    | .empty (.loadOther _) => 2

/-- A call that changes the ring has not returned, or it has succeeded; once it has changed the ring
it succeeds. It returns or goes deeper. The other thread's call is as before. -/
structure Threads.Effect (s : Threads A T) (thread : Thread) (events : List (RingEvent A T))
    (s' : Threads A T) : Prop where
  returns : events = [] ∨ ∃ event, events = [event] ∧ event.thread = thread ∧ event.KeepsArgument
  commits : s'.ring ≠ s.ring → s'.Succeeding thread events
  committed : s.Committed thread → ∃ event ∈ events, event.succeeded
  deeper : events = [] → s.depth thread < s'.depth thread
  frame : Frame s s' thread

namespace Threads

variable {capacity : BitVec 64} {s : Threads A T} {events : List (RingEvent A T)}

theorem start_invariant {memory : SlotMemory} {ring : SpscRing T}
    (h : SpscRing.new memory capacity = .ok ring) :
    Invariant capacity ([] : List (RingEvent A T)) (start ring) :=
  ⟨[], rfl, SpscRing.new_invariant h⟩

theorem pushedValues_concat (events : List (RingEvent A T)) (event : RingEvent A T) :
    pushedValues (events ++ [event]) = pushedValues events ++ event.pushed?.toList := by
  unfold pushedValues
  rw [List.filterMap_append]
  congr 1

theorem poppedValues_concat (events : List (RingEvent A T)) (event : RingEvent A T) :
    poppedValues (events ++ [event]) = poppedValues events ++ event.popped?.toList := by
  unfold poppedValues
  rw [List.filterMap_append]
  congr 1

/-- An event that moves no value. -/
theorem invariant_concat {queued : List T} {event : RingEvent A T}
    (hpushed : pushedValues events = poppedValues events ++ queued)
    (h : s.ring.Invariant capacity s.producer.call? s.consumer.call? (poppedValues events) queued)
    (hpush : event.pushed? = none) (hpop : event.popped? = none) :
    Invariant capacity (events ++ [event]) s := by
  unfold Invariant
  rw [pushedValues_concat, poppedValues_concat, hpush, hpop, Option.toList_none, List.append_nil,
    List.append_nil]
  exact ⟨queued, hpushed, h⟩

/-! ### Effects -/

variable {s' : Threads A T} {thread : Thread} {event : RingEvent A T}

theorem depth_le (s : Threads A T) (thread : Thread) : s.depth thread ≤ 4 := by
  unfold depth
  cases thread with
  | producer =>
    cases s.producer with
    | full point => cases point <;> simp
    | _ => simp
  | consumer =>
    cases s.consumer with
    | empty point => cases point <;> simp
    | _ => simp

theorem Frame.depth (h : Frame s s' thread) :
    ∀ thread' ≠ thread, s'.depth thread' = s.depth thread' := by
  intro thread' hne
  unfold Threads.depth
  cases thread <;> cases thread'
  · exact absurd rfl hne
  · rw [show s'.consumer = s.consumer from h]
  · rw [show s'.producer = s.producer from h]
  · exact absurd rfl hne

theorem Frame.committed (h : Frame s s' thread) :
    ∀ thread' ≠ thread, s'.Committed thread' ↔ s.Committed thread' := by
  intro thread' hne
  cases thread <;> cases thread'
  · exact absurd rfl hne
  · unfold Committed
    rw [show s'.consumer = s.consumer from h]
  · unfold Committed
    rw [show s'.producer = s.producer from h]
  · exact absurd rfl hne

theorem Effect.silent (hframe : Frame s s' thread) (hidle : ¬s.Committed thread)
    (hring : s'.Committed thread ∨ s'.ring = s.ring) (hdeeper : s.depth thread < s'.depth thread) :
    Effect s thread [] s' where
  returns := .inl rfl
  commits hne := .inl ⟨rfl, hring.resolve_right hne⟩
  committed h := absurd h hidle
  deeper _ := hdeeper
  frame := hframe

theorem Effect.refused (hframe : Frame s s' thread) (hidle : ¬s.Committed thread)
    (hring : s'.ring = s.ring) (hthread : event.thread = thread) (hkeeps : event.KeepsArgument) :
    Effect s thread [event] s' where
  returns := .inr ⟨event, rfl, hthread, hkeeps⟩
  commits hne := absurd hring hne
  committed h := absurd h hidle
  deeper h := nomatch h
  frame := hframe

theorem Effect.done (hframe : Frame s s' thread) (hthread : event.thread = thread)
    (hkeeps : event.KeepsArgument) (hsucceeded : event.succeeded) : Effect s thread [event] s' where
  returns := .inr ⟨event, rfl, hthread, hkeeps⟩
  commits _ := .inr ⟨event, by simp [firstReturn, hthread], hsucceeded⟩
  committed _ := ⟨event, List.mem_singleton_self _, hsucceeded⟩
  deeper h := nomatch h
  frame := hframe

/-! ### One step -/

theorem producerStep_ok (h : Invariant capacity events s) (next : ProducerCall A T) :
    ∃ events' s', (producerStep next).run s = .ok events' s' ∧ Invariant capacity (events ++ events') s' ∧
      Effect s .producer events' s' := by
  obtain ⟨queued, hpushed, hring⟩ := h
  obtain ⟨ring, producer, consumer⟩ := s
  cases producer with
  | idle =>
    have hidle : ¬Committed (⟨ring, .idle, consumer⟩ : Threads A T) .producer := by
      rintro ⟨_, ⟨⟩, _⟩
    cases next with
    | emplace construction given =>
      refine ⟨[], _, rfl, ?_, .silent rfl hidle (.inr rfl) Nat.one_pos⟩
      rw [List.append_nil]
      exact ⟨queued, hpushed, hring.startEmplace construction given⟩
    | full =>
      refine ⟨[], _, rfl, ?_, .silent rfl hidle (.inr rfl) Nat.one_pos⟩
      rw [List.append_nil]
      exact ⟨queued, hpushed, hring⟩
  | emplacing call =>
    obtain ⟨after, ring', run, hstep⟩ := hring.emplace_step
    have run' : (onRing call.step).run ⟨ring, .emplacing call, consumer⟩ =
        .ok after ⟨ring', .emplacing call, consumer⟩ := zoom_ok run
    have hcommitted : Committed (⟨ring, .emplacing call, consumer⟩ : Threads A T) .producer →
        call.Committed := by
      rintro ⟨_, ⟨⟩, hcall⟩
      exact hcall
    cases hstep with
    | @goesOn call' _ hnext hidle hring' =>
      refine ⟨[], ⟨ring', .emplacing call', consumer⟩, run_bind_ok run', ?_, ?_⟩
      · rw [List.append_nil]
        exact ⟨queued, hpushed, hnext⟩
      · refine .silent rfl (mt hcommitted hidle) (hring'.imp (fun h => ⟨call', rfl, h⟩) id) ?_
        obtain ⟨hless, _⟩ := call.step_goesOn run
        have hle := call.stepsLeft_le
        show 4 - call.stepsLeft < 4 - call'.stepsLeft
        omega
    | @pushed object left _ hmake hnext =>
      refine ⟨[.emplaced call.construction call.given .pushed left], ⟨ring', .idle, consumer⟩,
        run_bind_ok run', ?_, .done rfl rfl (fun h => by cases h) rfl⟩
      refine ⟨queued ++ [object], ?_, ?_⟩
      · rw [pushedValues_concat, poppedValues_concat, hpushed]
        simp [RingEvent.pushed?, RingEvent.popped?, hmake]
      · rw [poppedValues_concat, show RingEvent.popped? (A := A) (.emplaced _ _ .pushed left) = none
          from rfl, Option.toList_none, List.append_nil]
        exact hnext
    | full hidle hnext =>
      exact ⟨[.emplaced call.construction call.given .full call.given], ⟨ring, .idle, consumer⟩,
        run_bind_ok run', invariant_concat hpushed hnext rfl rfl,
        .refused rfl (mt hcommitted hidle) rfl rfl fun _ => rfl⟩
    | @threw left hidle _ hnext =>
      exact ⟨[.emplaced call.construction call.given .threw left], ⟨ring, .idle, consumer⟩,
        run_bind_ok run', invariant_concat hpushed hnext rfl rfl,
        .refused rfl (mt hcommitted hidle) rfl rfl fun h => by cases h⟩
  | full point =>
    have hidle : ¬Committed (⟨ring, .full point, consumer⟩ : Threads A T) .producer := by
      rintro ⟨_, ⟨⟩, _⟩
    obtain ⟨after, run⟩ := SpscRing.Invariant.fullStep_run ring point
    have run' : (onRing (SpscRing.fullStep point)).run ⟨ring, .full point, consumer⟩ =
        .ok after (⟨ring, .full point, consumer⟩ : Threads A T) := zoom_ok run
    cases after with
    | inl point' =>
      refine ⟨[], ⟨ring, .full point', consumer⟩, run_bind_ok run', ?_,
        .silent rfl hidle (.inr rfl) ?_⟩
      · rw [List.append_nil]
        exact ⟨queued, hpushed, hring⟩
      · cases point with
        | loadOwn =>
          cases run
          exact Nat.one_lt_two
        | loadOther own => cases run
    | inr result =>
      exact ⟨[.wasFull result], ⟨ring, .idle, consumer⟩, run_bind_ok run',
        invariant_concat hpushed hring rfl rfl, .refused rfl hidle rfl rfl trivial⟩

theorem consumerStep_ok (h : Invariant capacity events s) (next : ConsumerCall T) :
    ∃ events' s', (consumerStep next).run s = .ok events' s' ∧ Invariant capacity (events ++ events') s' ∧
      Effect s .consumer events' s' := by
  obtain ⟨queued, hpushed, hring⟩ := h
  obtain ⟨ring, producer, consumer⟩ := s
  cases consumer with
  | idle =>
    have hidle : ¬Committed (⟨ring, producer, .idle⟩ : Threads A T) .consumer := by
      rintro ⟨_, ⟨⟩, _⟩
    cases next with
    | tryPop given =>
      refine ⟨[], _, rfl, ?_, .silent rfl hidle (.inr rfl) Nat.one_pos⟩
      rw [List.append_nil]
      exact ⟨queued, hpushed, hring.startPop given⟩
    | empty =>
      refine ⟨[], _, rfl, ?_, .silent rfl hidle (.inr rfl) Nat.one_pos⟩
      rw [List.append_nil]
      exact ⟨queued, hpushed, hring⟩
  | popping call =>
    obtain ⟨after, ring', run, hstep⟩ := hring.pop_step
    have run' : (onRing call.step).run ⟨ring, producer, .popping call⟩ =
        .ok after ⟨ring', producer, .popping call⟩ := zoom_ok run
    have hcommitted : Committed (⟨ring, producer, .popping call⟩ : Threads A T) .consumer →
        call.Committed := by
      rintro ⟨_, ⟨⟩, hcall⟩
      exact hcall
    cases hstep with
    | @goesOn call' _ hnext hidle hring' =>
      refine ⟨[], ⟨ring', producer, .popping call'⟩, run_bind_ok run', ?_, ?_⟩
      · rw [List.append_nil]
        exact ⟨queued, hpushed, hnext⟩
      · refine .silent rfl (mt hcommitted hidle) (hring'.imp (fun h => ⟨call', rfl, h⟩) id) ?_
        obtain ⟨hless, _⟩ := call.step_goesOn run
        have hle := call.stepsLeft_le
        show 4 - call.stepsLeft < 4 - call'.stepsLeft
        omega
    | @popped object rest _ hqueued hnext =>
      refine ⟨[.popped call.given true object], ⟨ring', producer, .idle⟩, run_bind_ok run', ?_,
        .done rfl rfl (fun h => by cases h) rfl⟩
      refine ⟨rest, ?_, ?_⟩
      · rw [pushedValues_concat, poppedValues_concat, hpushed, hqueued]
        simp [RingEvent.pushed?, RingEvent.popped?]
      · rw [poppedValues_concat]
        exact hnext
    | empty hidle _ hnext =>
      exact ⟨[.popped call.given false call.given], ⟨ring, producer, .idle⟩, run_bind_ok run',
        invariant_concat hpushed hnext rfl rfl,
        .refused rfl (mt hcommitted hidle) rfl rfl fun _ => rfl⟩
  | empty point =>
    have hidle : ¬Committed (⟨ring, producer, .empty point⟩ : Threads A T) .consumer := by
      rintro ⟨_, ⟨⟩, _⟩
    obtain ⟨after, run⟩ := SpscRing.Invariant.emptyStep_run ring point
    have run' : (onRing (SpscRing.emptyStep point)).run ⟨ring, producer, .empty point⟩ =
        .ok after (⟨ring, producer, .empty point⟩ : Threads A T) := zoom_ok run
    cases after with
    | inl point' =>
      refine ⟨[], ⟨ring, producer, .empty point'⟩, run_bind_ok run', ?_,
        .silent rfl hidle (.inr rfl) ?_⟩
      · rw [List.append_nil]
        exact ⟨queued, hpushed, hring⟩
      · cases point with
        | loadOwn =>
          cases run
          exact Nat.one_lt_two
        | loadOther own => cases run
    | inr result =>
      exact ⟨[.wasEmpty result], ⟨ring, producer, .idle⟩, run_bind_ok run',
        invariant_concat hpushed hring rfl rfl, .refused rfl hidle rfl rfl trivial⟩

/-- **One action.** -/
theorem step_ok (h : Invariant capacity events s) (action : RingAction A T) :
    ∃ events' s', (step action).run s = .ok events' s' ∧ Invariant capacity (events ++ events') s' ∧
      Effect s action.thread events' s' := by
  cases action with
  | producer next => exact producerStep_ok h next
  | consumer next => exact consumerStep_ok h next

/-! ## Runs -/

theorem step_preserves : Preserves (step (A := A) (T := T)) fun events s =>
    Invariant capacity events s ∧ ∀ event ∈ events, event.KeepsArgument := by
  intro before s action h
  obtain ⟨events', s', run, hinv, heffect⟩ := step_ok h.1 action
  refine ⟨events', s', run, hinv, ?_⟩
  intro event hmem
  rcases List.mem_append.mp hmem with hbefore | hnew
  · exact h.2 event hbefore
  · rcases heffect.returns with rfl | ⟨returned, rfl, _, hkeeps⟩
    · cases hnew
    · rw [List.mem_singleton.mp hnew]
      exact hkeeps

theorem Effect.succeeding {action : RingAction A T} {before events : List (RingEvent A T)}
    (h : Effect s action.thread events s') (hs : s.Succeeding thread before) :
    s'.Succeeding thread (before ++ events) := by
  unfold Succeeding
  rw [firstReturn_append]
  rcases hs with ⟨hnone, hcommitted⟩ | ⟨event, hsome, hsucceeded⟩
  · rw [hnone, Option.none_or]
    by_cases hthread : thread = action.thread
    · subst hthread
      obtain ⟨event, hmem, hsucceeded⟩ := h.committed hcommitted
      rcases h.returns with rfl | ⟨returned, rfl, hreturned, _⟩
      · cases hmem
      · rw [List.mem_singleton.mp hmem] at hsucceeded
        exact .inr ⟨returned, by simp [firstReturn, hreturned], hsucceeded⟩
    · refine .inl ⟨?_, (h.frame.committed thread hthread).mpr hcommitted⟩
      rcases h.returns with rfl | ⟨returned, rfl, hreturned, _⟩
      · rfl
      · simp [firstReturn, hreturned, Ne.symm hthread]
  · rw [hsome]
    exact .inr ⟨event, rfl, hsucceeded⟩

/-- From `s` on, a call one of whose steps changes the ring succeeds: so a call that is refused has
not changed it. -/
def OnlySuccessesChange (s : Threads A T) : Prop :=
  ∀ action events s', (step action).run s = .ok events s' → s'.ring ≠ s.ring →
    ∀ more s'', Reaches step s' more s'' →
      ∀ event, firstReturn action.thread (events ++ more) = some event → event.succeeded

theorem Invariant.onlySuccessesChange (h : Invariant capacity events s) : OnlySuccessesChange s := by
  intro action events₁ s₁ run hchange more s₂ hreaches event hfirst
  obtain ⟨events', s', run', hinv, heffect⟩ := step_ok h action
  rw [run] at run'
  cases run'
  have hpreserves : Preserves step fun later s =>
      Invariant capacity (events ++ events₁ ++ later) s ∧
        s.Succeeding action.thread (events₁ ++ later) := by
    intro before s next hs
    obtain ⟨events', s', run', hinv', heffect'⟩ := step_ok hs.1 next
    refine ⟨events', s', run', ?_, ?_⟩
    · rw [← List.append_assoc]
      exact hinv'
    · rw [← List.append_assoc]
      exact heffect'.succeeding hs.2
  have hend := hpreserves.reaches ⟨by simpa using hinv, by simpa using heffect.commits hchange⟩ hreaches
  rcases hend.2 with ⟨hnone, _⟩ | ⟨event', hsome, hsucceeded⟩
  · rw [hfirst] at hnone
    cases hnone
  · rw [hfirst] at hsome
    cases hsome
    exact hsucceeded

/-- Every thread returns from a call within five steps of its own, whatever the steps of the other. -/
theorem step_returning (thread : Thread) : Returning (step (A := A) (T := T)) (Invariant capacity)
    (fun action => action.thread = thread) (fun event => event.thread = thread) 5
    (fun s => s.depth thread) where
  depth_lt _ := Nat.lt_succ_of_le (depth_le _ thread)
  step := by
    intro before s action h
    obtain ⟨events', s', run, hinv, heffect⟩ := step_ok h action
    refine ⟨events', s', run, hinv, ?_⟩
    by_cases hthread : action.thread = thread
    · subst hthread
      have hdepth := s.depth_le action.thread
      rcases heffect.returns with rfl | ⟨event, rfl, hevent, _⟩
      · have hdeeper := heffect.deeper rfl
        simp
        omega
      · simp [hevent]
        omega
    · rw [heffect.frame.depth thread (Ne.symm hthread)]
      simp [hthread]

/-- From `s` on, a call returns within five steps of its thread. -/
def Returns (s : Threads A T) : Prop :=
  ∀ (thread : Thread) (more : List (RingAction A T)), 5 ≤ more.countP (fun a => a.thread = thread) →
    ∃ events s', (trace step more).run s = .ok events s' ∧ ∃ event ∈ events, event.thread = thread

theorem Invariant.returns (h : Invariant capacity events s) : s.Returns := by
  intro thread more hmore
  obtain ⟨events', s', run, event, hevent, hthread⟩ := (step_returning thread).returns h hmore
  exact ⟨events', s', run, event, hevent, of_decide_eq_true hthread⟩

/-- What holds of a ring of this capacity after these events. -/
structure Fifo (capacity : BitVec 64) (events : List (RingEvent A T)) (s : Threads A T) : Prop where
  order : poppedValues events <+: pushedValues events
  held : (pushedValues events).length ≤ (poppedValues events).length + capacity.toNat
  live : ∀ i, s.ring.slots i ≠ none → i < capacity.toNat
  arguments : ∀ event ∈ events, event.KeepsArgument
  refusals : OnlySuccessesChange s
  returns : s.Returns
  destructor : s.producer = .idle → s.consumer = .idle →
    ∃ destroyed ring', SpscRing.clear.run s.ring = .ok destroyed ring' ∧
      pushedValues events = poppedValues events ++ destroyed ∧ ∀ i, ring'.slots i = none

theorem Invariant.fifo (h : Invariant capacity events s)
    (hkeeps : ∀ event ∈ events, event.KeepsArgument) : Fifo capacity events s := by
  have hrefusals := h.onlySuccessesChange
  have hreturns := h.returns
  obtain ⟨queued, hpushed, hring⟩ := h
  refine ⟨⟨queued, hpushed.symm⟩, ?_, ?_, hkeeps, hrefusals, hreturns, ?_⟩
  · rw [hpushed, List.length_append, ← hring.size]
    exact Nat.add_le_add_left hring.fits _
  · intro i hi
    obtain ⟨object, hobject⟩ := Option.ne_none_iff_exists'.mp hi
    rw [← hring.size]
    exact hring.slots.lt_size hobject
  · intro hproducer hconsumer
    rw [hproducer, hconsumer] at hring
    obtain ⟨ring', run, hnone⟩ := hring.clear_run
    exact ⟨queued, ring', run, hpushed, hnone⟩

/-- **The ring is a bounded queue under every interleaving**, once it is constructed. A run of any
length takes no access to a slot that goes wrong: none constructs over a live object, and none moves
from or destroys a slot without one. -/
theorem runs_fifo {capacity : BitVec 64} {memory : SlotMemory} (hcapacity : capacity.toNat.isPowerOfTwo)
    (hmemory : memory.Grants capacity) (actions : List (RingAction A T)) :
    ∃ ring events s, SpscRing.new memory capacity = .ok ring ∧
      (trace step actions).run (start ring) = .ok events s ∧ Fifo capacity events s := by
  obtain ⟨ring, hring⟩ := SpscRing.new_ok (T := T) hcapacity hmemory
  obtain ⟨events, s, run, hinv, hkeeps⟩ :=
    step_preserves.trace actions ⟨start_invariant hring, fun _ h => by cases h⟩
  exact ⟨ring, events, s, hring, run, hinv.fifo hkeeps⟩

/-- Capacity two, three pushes and a pop: the third push is refused. -/
theorem runs_fifo_two :
    let push (n : ℕ) : List (RingAction ℕ ℕ) := List.replicate 5 (.producer (.emplace copyOf n))
    let pop : List (RingAction ℕ ℕ) := List.replicate 5 (.consumer (.tryPop 0))
    ∃ ring events s, SpscRing.new ⟨8, 1024, true⟩ 2 = .ok ring ∧
      (trace step (push 7 ++ push 8 ++ push 9 ++ pop)).run (start ring) = .ok events s ∧
      Fifo 2 events s :=
  runs_fifo ⟨1, rfl⟩ (by decide) _

end Threads

end Lob
