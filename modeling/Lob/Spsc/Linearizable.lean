import Lob.Spsc.Size

/-!
# The ring as an atomic queue

Every call on the ring takes effect at its last step, at once: the calls of any run return what they
return on a bounded queue that runs them one after the other, in the order in which they return.
-/

namespace Lob

open Basis

variable {A T : Type}

/-! ## A queue without threads -/

/-- The call that has returned. -/
def RingEvent.call : RingEvent A T → ProducerCall A T ⊕ ConsumerCall T
  | .emplaced construction given _ _ => .inl (.emplace construction given)
  | .wasFull _ => .inl .full
  | .popped given _ _ => .inr (.tryPop given)
  | .wasEmpty _ => .inr .empty

/-- A call on a queue of at most `capacity` objects. -/
def callQueue (capacity : ℕ) (queue : List T) :
    ProducerCall A T ⊕ ConsumerCall T → RingEvent A T × List T
  | .inl (.emplace construction given) =>
    if queue.length = capacity then (.emplaced construction given .full given, queue)
    else
      match construction given with
      | (none, left) => (.emplaced construction given .threw left, queue)
      | (some object, left) => (.emplaced construction given .pushed left, queue ++ [object])
  | .inl .full => (.wasFull (queue.length = capacity), queue)
  | .inr (.tryPop given) =>
    match queue with
    | [] => (.popped given false given, [])
    | object :: queue => (.popped given true object, queue)
  | .inr .empty => (.wasEmpty queue.isEmpty, queue)

/-- The calls one after the other. -/
def callsQueue (capacity : ℕ) (queue : List T) :
    List (ProducerCall A T ⊕ ConsumerCall T) → List (RingEvent A T) × List T
  | [] => ([], queue)
  | call :: calls =>
    let (event, queue) := callQueue capacity queue call
    let (events, queue) := callsQueue capacity queue calls
    (event :: events, queue)

variable {capacity : ℕ} {queue queue' : List T} {events : List (RingEvent A T)}
  {event : RingEvent A T}

theorem callQueue_full {construction : A → Option T × A} {given : A} (h : queue.length = capacity) :
    callQueue capacity queue (.inl (.emplace construction given)) =
      (.emplaced construction given .full given, queue) := if_pos h

theorem callQueue_threw {construction : A → Option T × A} {given left : A}
    (h : queue.length ≠ capacity) (hmake : construction given = (none, left)) :
    callQueue capacity queue (.inl (.emplace construction given)) =
      (.emplaced construction given .threw left, queue) := by
  rw [callQueue, if_neg h, hmake]

theorem callQueue_pushed {construction : A → Option T × A} {given left : A} {object : T}
    (h : queue.length ≠ capacity) (hmake : construction given = (some object, left)) :
    callQueue capacity queue (.inl (.emplace construction given)) =
      (.emplaced construction given .pushed left, queue ++ [object]) := by
  rw [callQueue, if_neg h, hmake]

/-- What an `emplace` does to a queue. -/
theorem callQueue_emplace (capacity : ℕ) (queue : List T) (construction : A → Option T × A)
    (given : A) :
    (queue.length = capacity ∧ callQueue capacity queue (.inl (.emplace construction given)) =
      (.emplaced construction given .full given, queue)) ∨
    (∃ left, queue.length ≠ capacity ∧ construction given = (none, left) ∧
      callQueue capacity queue (.inl (.emplace construction given)) =
        (.emplaced construction given .threw left, queue)) ∨
    ∃ object left, queue.length ≠ capacity ∧ construction given = (some object, left) ∧
      callQueue capacity queue (.inl (.emplace construction given)) =
        (.emplaced construction given .pushed left, queue ++ [object]) := by
  by_cases hfull : queue.length = capacity
  · exact .inl ⟨hfull, callQueue_full hfull⟩
  cases hmake : construction given with
  | mk made left =>
    cases made with
    | none => exact .inr (.inl ⟨left, hfull, rfl, callQueue_threw hfull hmake⟩)
    | some object => exact .inr (.inr ⟨object, left, hfull, rfl, callQueue_pushed hfull hmake⟩)

theorem callsQueue_append (calls more : List (ProducerCall A T ⊕ ConsumerCall T)) :
    callsQueue capacity queue (calls ++ more) =
      ((callsQueue capacity queue calls).1 ++ (callsQueue capacity (callsQueue capacity queue calls).2
        more).1, (callsQueue capacity (callsQueue capacity queue calls).2 more).2) := by
  induction calls generalizing queue with
  | nil => rfl
  | cons call calls ih =>
    show (_ :: (callsQueue capacity _ (calls ++ more)).1,
      (callsQueue capacity _ (calls ++ more)).2) = _
    rw [ih]
    rfl

/-- A queue within its capacity stays so. -/
theorem callQueue_length_le (h : queue.length ≤ capacity)
    (call : ProducerCall A T ⊕ ConsumerCall T) :
    (callQueue capacity queue call).2.length ≤ capacity := by
  cases call with
  | inl call =>
    cases call with
    | emplace construction given =>
      obtain ⟨_, hcall⟩ | ⟨_, _, _, hcall⟩ | ⟨object, _, hroom, _, hcall⟩ :=
        callQueue_emplace capacity queue construction given
      · rwa [hcall]
      · rwa [hcall]
      · rw [hcall, List.length_append, List.length_singleton]
        omega
    | full => exact h
  | inr call =>
    cases call with
    | tryPop given =>
      cases queue with
      | nil => exact h
      | cons object queue => exact (Nat.le_succ _).trans h
    | empty => exact h

theorem callsQueue_length_le (h : queue.length ≤ capacity)
    (calls : List (ProducerCall A T ⊕ ConsumerCall T)) :
    (callsQueue capacity queue calls).2.length ≤ capacity := by
  induction calls generalizing queue with
  | nil => exact h
  | cons call calls ih => exact ih (callQueue_length_le h call)

/-- The queue after a call has the values that were pushed and not popped. -/
theorem queued_of_call (h : pushedValues events = poppedValues events ++ queue)
    (hcall : callQueue capacity queue event.call = (event, queue')) :
    pushedValues (events ++ [event]) = poppedValues (events ++ [event]) ++ queue' := by
  rw [Threads.pushedValues_concat, Threads.poppedValues_concat, h]
  cases event with
  | emplaced construction given result left =>
    obtain ⟨_, heq⟩ | ⟨_, _, _, heq⟩ | ⟨object, _, _, hmake, heq⟩ :=
      callQueue_emplace capacity queue construction given
    all_goals obtain ⟨⟨⟩, rfl⟩ := Prod.mk.inj (heq.symm.trans hcall)
    · simp [RingEvent.pushed?, RingEvent.popped?]
    · simp [RingEvent.pushed?, RingEvent.popped?]
    · simp [RingEvent.pushed?, RingEvent.popped?, hmake]
  | wasFull result =>
    obtain ⟨_, rfl⟩ := Prod.mk.inj hcall
    simp [RingEvent.pushed?, RingEvent.popped?]
  | popped given result out =>
    cases queue with
    | nil =>
      obtain ⟨⟨⟩, rfl⟩ := Prod.mk.inj hcall
      simp [RingEvent.pushed?, RingEvent.popped?]
    | cons object queue =>
      obtain ⟨⟨⟩, rfl⟩ := Prod.mk.inj hcall
      simp [RingEvent.pushed?, RingEvent.popped?]
  | wasEmpty result =>
    obtain ⟨_, rfl⟩ := Prod.mk.inj hcall
    simp [RingEvent.pushed?, RingEvent.popped?]

theorem length_callsQueue (calls : List (ProducerCall A T ⊕ ConsumerCall T)) :
    (callsQueue capacity queue calls).1.length = calls.length := by
  induction calls generalizing queue with
  | nil => rfl
  | cons call calls ih => exact congrArg (· + 1) ih

/-- The first events are those of the first calls. -/
theorem of_callsQueue_append {more : List (RingEvent A T)}
    (h : callsQueue capacity queue ((events ++ more).map RingEvent.call) = (events ++ more, queue')) :
    ∃ queue₁, callsQueue capacity queue (events.map RingEvent.call) = (events, queue₁) ∧
      callsQueue capacity queue₁ (more.map RingEvent.call) = (more, queue') := by
  rw [List.map_append, callsQueue_append] at h
  obtain ⟨hevents, hqueue⟩ := Prod.mk.inj h
  obtain ⟨hfirst, hmore⟩ := List.append_inj hevents (by rw [length_callsQueue, List.length_map])
  exact ⟨_, Prod.ext hfirst rfl, Prod.ext hmore hqueue⟩

theorem of_callsQueue_cons {more : List (RingEvent A T)}
    (h : callsQueue capacity queue ((event :: more).map RingEvent.call) = (event :: more, queue')) :
    ∃ queue₁, callQueue capacity queue event.call = (event, queue₁) ∧
      callsQueue capacity queue₁ (more.map RingEvent.call) = (more, queue') := by
  obtain ⟨hevents, hqueue⟩ := Prod.mk.inj h
  obtain ⟨hevent, hmore⟩ := List.cons_eq_cons.mp hevents
  exact ⟨_, Prod.ext hevent rfl, Prod.ext hmore hqueue⟩

/-! ### What the other thread leaves of a query -/

/-- The producer takes nothing out. -/
theorem producer_keeps (hthread : event.thread = .producer)
    (h : callQueue capacity queue event.call = (event, queue')) : ∃ more, queue' = queue ++ more := by
  cases event with
  | emplaced construction given result left =>
    obtain ⟨_, heq⟩ | ⟨_, _, _, heq⟩ | ⟨object, _, _, _, heq⟩ :=
      callQueue_emplace capacity queue construction given
    all_goals obtain ⟨_, rfl⟩ := Prod.mk.inj (heq.symm.trans h)
    · exact ⟨[], (List.append_nil _).symm⟩
    · exact ⟨[], (List.append_nil _).symm⟩
    · exact ⟨[object], rfl⟩
  | wasFull result =>
    obtain ⟨_, rfl⟩ := Prod.mk.inj h
    exact ⟨[], (List.append_nil _).symm⟩
  | popped given result out => cases hthread
  | wasEmpty result => cases hthread

/-- The consumer puts nothing in. -/
theorem consumer_keeps (hthread : event.thread = .consumer)
    (h : callQueue capacity queue event.call = (event, queue')) : queue'.length ≤ queue.length := by
  cases event with
  | emplaced construction given result left => cases hthread
  | wasFull result => cases hthread
  | popped given result out =>
    cases queue with
    | nil =>
      obtain ⟨_, rfl⟩ := Prod.mk.inj h
      exact le_rfl
    | cons object queue =>
      obtain ⟨_, rfl⟩ := Prod.mk.inj h
      exact Nat.le_succ _
  | wasEmpty result =>
    obtain ⟨_, rfl⟩ := Prod.mk.inj h
    exact le_rfl

theorem producers_keep (hthread : ∀ event ∈ events, event.thread = .producer)
    (h : callsQueue capacity queue (events.map RingEvent.call) = (events, queue')) :
    ∃ more, queue' = queue ++ more := by
  induction events generalizing queue with
  | nil =>
    obtain ⟨_, rfl⟩ := Prod.mk.inj h
    exact ⟨[], (List.append_nil _).symm⟩
  | cons event events ih =>
    obtain ⟨queue₁, hcall, hcalls⟩ := of_callsQueue_cons h
    obtain ⟨more, rfl⟩ := producer_keeps (hthread event List.mem_cons_self) hcall
    obtain ⟨more', rfl⟩ := ih (fun e he => hthread e (List.mem_cons_of_mem _ he)) hcalls
    exact ⟨more ++ more', List.append_assoc _ _ _⟩

theorem consumers_keep (hthread : ∀ event ∈ events, event.thread = .consumer)
    (h : callsQueue capacity queue (events.map RingEvent.call) = (events, queue')) :
    queue'.length ≤ queue.length := by
  induction events generalizing queue with
  | nil =>
    obtain ⟨_, rfl⟩ := Prod.mk.inj h
    exact le_rfl
  | cons event events ih =>
    obtain ⟨queue₁, hcall, hcalls⟩ := of_callsQueue_cons h
    exact (ih (fun e he => hthread e (List.mem_cons_of_mem _ he)) hcalls).trans
      (consumer_keeps (hthread event List.mem_cons_self) hcall)

/-- The events are those of the queue; and what a query says that the own thread can rely on, it can
rely on until its next call. -/
structure Atomic (capacity : ℕ) (events : List (RingEvent A T)) : Prop where
  queue : callsQueue capacity [] (events.map RingEvent.call) = (events, queuedValues events)
  notEmpty : ∀ before between after given result out,
    events = before ++ .wasEmpty false :: (between ++ .popped given result out :: after) →
    (∀ event ∈ between, event.thread = .producer) → result = true
  notFull : ∀ before between after construction given result left,
    events = before ++
      .wasFull false :: (between ++ .emplaced construction given result left :: after) →
    (∀ event ∈ between, event.thread = .consumer) → result ≠ .full

theorem atomic_of_queue
    (h : callsQueue capacity [] (events.map RingEvent.call) = (events, queuedValues events)) :
    Atomic capacity events := by
  refine ⟨h, ?_, ?_⟩
  · rintro before between after given result out rfl hthread
    obtain ⟨queue, _, hrest⟩ := of_callsQueue_append h
    obtain ⟨queue₁, hquery, hrest⟩ := of_callsQueue_cons hrest
    obtain ⟨queue₂, hbetween, hrest⟩ := of_callsQueue_append hrest
    obtain ⟨queue₃, hpop, _⟩ := of_callsQueue_cons hrest
    obtain ⟨more, rfl⟩ := producers_keep hthread hbetween
    obtain ⟨hevent, rfl⟩ := Prod.mk.inj hquery
    cases queue with
    | nil => cases hevent
    | cons object queue =>
      cases (Prod.mk.inj hpop).1
      rfl
  · rintro before between after construction given result left rfl hthread rfl
    obtain ⟨queue, hbefore, hrest⟩ := of_callsQueue_append h
    obtain ⟨queue₁, hquery, hrest⟩ := of_callsQueue_cons hrest
    obtain ⟨queue₂, hbetween, hrest⟩ := of_callsQueue_append hrest
    obtain ⟨queue₃, hpush, _⟩ := of_callsQueue_cons hrest
    have hheld : queue.length ≤ capacity := by
      have hle : (callsQueue capacity ([] : List T) (before.map RingEvent.call)).2.length ≤ capacity :=
        callsQueue_length_le (Nat.zero_le capacity) _
      rwa [hbefore] at hle
    have hkept := consumers_keep hthread hbetween
    obtain ⟨hevent, rfl⟩ := Prod.mk.inj hquery
    have hroom : queue.length ≠ capacity := by
      intro hfull
      rw [decide_eq_true hfull] at hevent
      cases hevent
    have hfull : queue₂.length = capacity := by
      obtain ⟨hfull, _⟩ | ⟨_, _, _, heq⟩ | ⟨_, _, _, _, heq⟩ :=
        callQueue_emplace capacity queue₂ construction given
      · exact hfull
      · cases (Prod.mk.inj (heq.symm.trans hpush)).1
      · cases (Prod.mk.inj (heq.symm.trans hpush)).1
    omega

/-! ## The last step of a call -/

namespace SpscRing.Invariant

variable {capacity : BitVec 64} {ring ring' : SpscRing T} {emplacing : Option (Emplacing A T)}
  {popping : Option (Popping T)} {popped queued : List T}

/-- What `emplace` returns at its last step, it returns on the queue. -/
theorem emplace_returns {call : Emplacing A T} {result : EmplaceResult} {left : A}
    (h : Invariant capacity ring (some call) popping popped queued)
    (run : call.step.run ring = .ok (.inr (result, left)) ring') :
    ∃ queued', callQueue capacity.toNat queued (.inl (.emplace call.construction call.given)) =
      ((.emplaced call.construction call.given result left : RingEvent A T), queued') := by
  have hknows := h.pushes call rfl
  have hsize : ring.capacity.toNat = capacity.toNat := congrArg BitVec.toNat h.size
  obtain ⟨construction, given, argument, point⟩ := call
  cases point with
  | loadWrite => cases run
  | loadRead write =>
    obtain ⟨hargument, hwrite⟩ := hknows
    have hfull := h.full_iff
    rw [← hwrite, hsize] at hfull
    by_cases hc : write - ring.readIndex = ring.capacity
    · rw [Emplacing.run_full hc, show argument = given from hargument] at run
      cases run
      exact ⟨queued, callQueue_full (hfull.mp hc)⟩
    · rw [Emplacing.run_room hc] at run
      cases run
  | construct write =>
    obtain ⟨hargument, -, hroom⟩ := hknows
    rw [hsize] at hroom
    obtain rfl : argument = given := hargument
    cases hmake : construction argument with
    | mk made rest =>
      cases made with
      | none =>
        rw [Emplacing.run_threw hmake] at run
        cases run
        exact ⟨queued, callQueue_threw hroom.ne hmake⟩
      | some object =>
        obtain ⟨ring₁, run₁, _⟩ := h.construct rfl hmake
        rw [Emplacing.run_constructed hmake run₁] at run
        cases run
  | storeWrite write =>
    obtain ⟨-, hroom, object, hmake⟩ := hknows
    rw [hsize] at hroom
    cases run
    exact ⟨queued ++ [object], callQueue_pushed hroom.ne hmake⟩

/-- What `tryPop` returns at its last step, it returns on the queue. -/
theorem pop_returns {call : Popping T} {result : Bool} {out : T}
    (h : Invariant capacity ring emplacing (some call) popped queued)
    (run : call.step.run ring = .ok (.inr (result, out)) ring') :
    ∃ queued', callQueue capacity.toNat queued (.inr (.tryPop call.given)) =
      ((.popped call.given result out : RingEvent A T), queued') := by
  obtain ⟨next, ring₁, run₁, hstep⟩ := h.pop_step
  rw [run] at run₁
  obtain ⟨rfl, rfl⟩ := EStateM.Result.ok.inj run₁
  cases hstep with
  | popped hqueued _ =>
    rw [hqueued]
    exact ⟨_, rfl⟩
  | empty _ hqueued _ =>
    rw [hqueued]
    exact ⟨_, rfl⟩

end SpscRing.Invariant

/-! ## What a step returns -/

namespace Threads

variable {s s' : Threads A T} {events' : List (RingEvent A T)}

/-- A step of the producer returns nothing, or what its call returns. -/
inductive ProducerReturns (s : Threads A T) : List (RingEvent A T) → Threads A T → Prop
  | silent {s' : Threads A T} (hconsumer : s'.consumer = s.consumer)
      (hfull : ∀ own, s'.producer = .full (.loadOther own) → own = s'.ring.writeIndex) :
      ProducerReturns s [] s'
  | emplaced {call : Emplacing A T} {result : EmplaceResult} {left : A} {ring' : SpscRing T}
      (hcall : s.producer = .emplacing call)
      (run : call.step.run s.ring = .ok (.inr (result, left)) ring') :
      ProducerReturns s [.emplaced call.construction call.given result left]
        ⟨ring', .idle, s.consumer⟩
  | queried {own : Index} (hcall : s.producer = .full (.loadOther own)) :
      ProducerReturns s [.wasFull (decide (own - s.ring.readIndex = s.ring.capacity))]
        ⟨s.ring, .idle, s.consumer⟩

/-- A step of the consumer. -/
inductive ConsumerReturns (s : Threads A T) : List (RingEvent A T) → Threads A T → Prop
  | silent {s' : Threads A T} (hproducer : s'.producer = s.producer)
      (hempty : ∀ own, s'.consumer = .empty (.loadOther own) → own = s'.ring.readIndex) :
      ConsumerReturns s [] s'
  | popped {call : Popping T} {result : Bool} {out : T} {ring' : SpscRing T}
      (hcall : s.consumer = .popping call)
      (run : call.step.run s.ring = .ok (.inr (result, out)) ring') :
      ConsumerReturns s [.popped call.given result out] ⟨ring', s.producer, .idle⟩
  | queried {own : Index} (hcall : s.consumer = .empty (.loadOther own)) :
      ConsumerReturns s [.wasEmpty (decide (own = s.ring.writeIndex))] ⟨s.ring, s.producer, .idle⟩

theorem producerStep_returns {next : ProducerCall A T}
    (run : (producerStep next).run s = .ok events' s') : ProducerReturns s events' s' := by
  obtain ⟨ring, producer, consumer⟩ := s
  unfold producerStep at run
  rw [run_get_bind] at run
  cases producer with
  | idle =>
    cases next with
    | emplace construction given =>
      cases run
      exact .silent rfl fun own hown => nomatch hown
    | full =>
      cases run
      exact .silent rfl fun own hown => nomatch hown
  | emplacing call =>
    obtain ⟨after, s₁, run₁, run⟩ := of_run_bind_ok run
    obtain ⟨ring', hcall, rfl⟩ := of_zoom_ok run₁
    cases after with
    | inl call' =>
      cases run
      exact .silent rfl fun own hown => nomatch hown
    | inr returned =>
      cases run
      exact .emplaced rfl hcall
  | full point =>
    cases point with
    | loadOwn =>
      cases run
      refine .silent rfl fun own hown => ?_
      cases hown
      rfl
    | loadOther own =>
      cases run
      exact .queried rfl

theorem consumerStep_returns {next : ConsumerCall T}
    (run : (consumerStep next).run s = .ok events' s') : ConsumerReturns s events' s' := by
  obtain ⟨ring, producer, consumer⟩ := s
  unfold consumerStep at run
  rw [run_get_bind] at run
  cases consumer with
  | idle =>
    cases next with
    | tryPop given =>
      cases run
      exact .silent rfl fun own hown => nomatch hown
    | empty =>
      cases run
      exact .silent rfl fun own hown => nomatch hown
  | popping call =>
    obtain ⟨after, s₁, run₁, run⟩ := of_run_bind_ok run
    obtain ⟨ring', hcall, rfl⟩ := of_zoom_ok run₁
    cases after with
    | inl call' =>
      cases run
      exact .silent rfl fun own hown => nomatch hown
    | inr returned =>
      cases run
      exact .popped rfl hcall
  | empty point =>
    cases point with
    | loadOwn =>
      cases run
      refine .silent rfl fun own hown => ?_
      cases hown
      rfl
    | loadOther own =>
      cases run
      exact .queried rfl

/-! ## Runs -/

variable {capacity : BitVec 64} {events : List (RingEvent A T)}

/-- The events so far are those of the queue, and a query in progress knows its own index. -/
structure Linear (capacity : BitVec 64) (events : List (RingEvent A T)) (s : Threads A T) : Prop where
  threads : Threads.Invariant capacity events s
  queue : callsQueue capacity.toNat [] (events.map RingEvent.call) = (events, queuedValues events)
  full : ∀ own, s.producer = .full (.loadOther own) → own = s.ring.writeIndex
  empty : ∀ own, s.consumer = .empty (.loadOther own) → own = s.ring.readIndex

theorem start_linear {memory : SlotMemory} {ring : SpscRing T}
    (h : SpscRing.new memory capacity = .ok ring) :
    Linear capacity ([] : List (RingEvent A T)) (start ring) where
  threads := start_invariant h
  queue := rfl
  full _ hown := nomatch hown
  empty _ hown := nomatch hown

theorem queued_eq {queued : List T} (h : pushedValues events = poppedValues events ++ queued) :
    queuedValues events = queued := by
  unfold queuedValues
  rw [h, List.drop_left]

/-- A call that returns what it returns on the queue. -/
theorem Linear.concat (h : Linear capacity events s) {event : RingEvent A T} {queue' : List T}
    (hcall : callQueue capacity.toNat (queuedValues events) event.call = (event, queue')) :
    callsQueue capacity.toNat [] ((events ++ [event]).map RingEvent.call) =
      (events ++ [event], queuedValues (events ++ [event])) := by
  obtain ⟨queued, hpushed, _⟩ := h.threads
  rw [queued_eq hpushed] at hcall
  rw [queued_eq (queued_of_call hpushed hcall), List.map_append, callsQueue_append, h.queue,
    queued_eq hpushed]
  show (events ++ [(callQueue capacity.toNat queued event.call).1],
    (callQueue capacity.toNat queued event.call).2) = _
  rw [hcall]

theorem Linear.producerStep (h : Linear capacity events s) (next : ProducerCall A T) :
    ∃ events' s', (producerStep next).run s = .ok events' s' ∧
      Linear capacity (events ++ events') s' := by
  obtain ⟨events', s', run, hinv, _⟩ := producerStep_ok h.threads next
  obtain ⟨queued, hpushed, hring⟩ := h.threads
  have hqueued := queued_eq hpushed
  have hread := h.threads.counted.2.2
  have hread' := hinv.counted.2.2
  refine ⟨events', s', run, ?_⟩
  cases producerStep_returns run with
  | silent hconsumer hfull =>
    rw [List.append_nil] at hinv hread' ⊢
    refine ⟨hinv, h.queue, hfull, fun own hown => ?_⟩
    rw [hconsumer] at hown
    rw [h.empty own hown, hread, hread']
  | emplaced hcall run' =>
    rw [hcall] at hring
    obtain ⟨queued', hreturns⟩ := hring.emplace_returns run'
    rw [← hqueued] at hreturns
    refine ⟨hinv, h.concat hreturns, (fun own hown => by cases hown), fun own hown => ?_⟩
    rw [h.empty own hown, hread, hread', poppedValues_concat]
    simp [RingEvent.popped?]
  | @queried own hcall =>
    have hsize : s.ring.capacity.toNat = capacity.toNat := congrArg BitVec.toNat hring.size
    have hfull := hring.full_iff
    rw [← h.full own hcall, hsize] at hfull
    have hreturns : callQueue capacity.toNat (queuedValues events) (.inl .full) =
        ((.wasFull (decide (own - s.ring.readIndex = s.ring.capacity)) : RingEvent A T), queued) := by
      rw [hqueued, decide_eq_decide.mpr hfull]
      rfl
    exact ⟨hinv, h.concat hreturns, (fun own hown => by cases hown), fun own hown => h.empty own hown⟩

theorem Linear.consumerStep (h : Linear capacity events s) (next : ConsumerCall T) :
    ∃ events' s', (consumerStep next).run s = .ok events' s' ∧
      Linear capacity (events ++ events') s' := by
  obtain ⟨events', s', run, hinv, _⟩ := consumerStep_ok h.threads next
  obtain ⟨queued, hpushed, hring⟩ := h.threads
  have hqueued := queued_eq hpushed
  have hwrite := h.threads.counted.2.1
  have hwrite' := hinv.counted.2.1
  refine ⟨events', s', run, ?_⟩
  cases consumerStep_returns run with
  | silent hproducer hempty =>
    rw [List.append_nil] at hinv hwrite' ⊢
    refine ⟨hinv, h.queue, fun own hown => ?_, hempty⟩
    rw [hproducer] at hown
    rw [h.full own hown, hwrite, hwrite']
  | popped hcall run' =>
    rw [hcall] at hring
    obtain ⟨queued', hreturns⟩ := hring.pop_returns run'
    rw [← hqueued] at hreturns
    refine ⟨hinv, h.concat hreturns, fun own hown => ?_, fun own hown => by cases hown⟩
    rw [h.full own hown, hwrite, hwrite', pushedValues_concat]
    simp [RingEvent.pushed?]
  | @queried own hcall =>
    have hempty := hring.empty_iff
    rw [← h.empty own hcall] at hempty
    have hreturns : callQueue capacity.toNat (queuedValues events) (.inr .empty) =
        ((.wasEmpty (decide (own = s.ring.writeIndex)) : RingEvent A T), queued) := by
      rw [hqueued, decide_eq_decide.mpr hempty]
      cases queued <;> rfl
    exact ⟨hinv, h.concat hreturns, fun own hown => h.full own hown, fun own hown => by cases hown⟩

/-- **The ring is linearizable**, once it is constructed. In every run of the two threads the calls
return what they return on a bounded queue that runs them one after the other, in the order in which
they return; so after a query the own thread can rely on what it said, whatever the other thread does
meanwhile. And every call returns within five steps of its thread. -/
theorem runs_linearizable {capacity : BitVec 64} {memory : SlotMemory}
    (hcapacity : capacity.toNat.isPowerOfTwo) (hmemory : memory.Grants capacity)
    (actions : List (RingAction A T)) :
    ∃ ring events s, SpscRing.new memory capacity = .ok ring ∧
      (trace step actions).run (start ring) = .ok events s ∧ Atomic capacity.toNat events ∧
      s.Returns := by
  obtain ⟨ring, hring⟩ := SpscRing.new_ok (T := T) hcapacity hmemory
  have hpreserves : Preserves (step (A := A) (T := T)) (Linear capacity) := by
    intro before s action h
    cases action with
    | producer next => exact h.producerStep next
    | consumer next => exact h.consumerStep next
  obtain ⟨events, s, run, h⟩ := hpreserves.trace actions (start_linear hring)
  exact ⟨ring, events, s, hring, run, atomic_of_queue h.queue, h.threads.returns⟩

/-- The producer asks whether the ring is full and pushes, while the consumer pops. -/
theorem runs_linearizable_two :
    let push (n : ℕ) : List (RingAction ℕ ℕ) := List.replicate 5 (.producer (.emplace copyOf n))
    let full : List (RingAction ℕ ℕ) := List.replicate 3 (.producer .full)
    let pop : List (RingAction ℕ ℕ) := List.replicate 5 (.consumer (.tryPop 0))
    ∃ ring events s, SpscRing.new ⟨8, 1024, true⟩ 2 = .ok ring ∧
      (trace step (push 7 ++ full ++ pop ++ push 8)).run (start ring) = .ok events s ∧
      Atomic 2 events ∧ s.Returns :=
  runs_linearizable ⟨1, rfl⟩ (by decide) _

end Threads

end Lob
