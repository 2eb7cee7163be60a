import Lob.App.ItchReplay
import Lob.Engine.Replay
import Lob.Itch.Streaming
import Lob.Spsc.Steps

/-!
# Shutdown of the replay

The producer stores `producer_done` after its last push, and the consumer tests the flag before it
tests the ring. So when the loop ends nothing is left on the ring, and what was applied is what was
pushed: the replay of the file is the sequential replay of its events.
-/

namespace Lob

open Basis Itch

/-! ## The file -/

/-- A frame decodes or is an error; no read of its bytes goes wrong. -/
theorem decodeFrame_total (bytes : List Byte) : ∃ decoded, decodeFrame bytes = .ok decoded := by
  unfold decodeFrame
  rcases decodeNext_cases bytes with h | ⟨code, offset, reason, h⟩ | ⟨event, count, h, _⟩
  · exact ⟨_, by rw [h]; rfl⟩
  · exact ⟨_, by rw [h]; rfl⟩
  · exact ⟨_, by rw [h]; rfl⟩

def FrameRead.event? : FrameRead → Option ItchEvent
  | .frame bytes =>
    match decodeFrame bytes with
    | .ok (.ok event) => some event
    | _ => none
  | .error _ => none

theorem FrameRead.event?_frame {bytes : List Byte} {decoded : Except String ItchEvent}
    (h : decodeFrame bytes = .ok decoded) : (FrameRead.frame bytes).event? = decoded.toOption := by
  simp only [event?, h]
  cases decoded <;> rfl

/-- The events before the end of the file or the first error. -/
def decodedEvents : List FrameRead → List ItchEvent
  | [] => []
  | read :: reads =>
    match read.event? with
    | some event => event :: decodedEvents reads
    | none => []

/-- There is an error before the end of the file. -/
def endsInError : List FrameRead → Bool
  | [] => false
  | read :: reads =>
    match read.event? with
    | some _ => endsInError reads
    | none => true

/-- An order of ten shares at locate 1. -/
def addFrame : List Byte :=
  [0, 36, 65, 0, 1] ++ List.replicate 15 0 ++ [7, 66, 0, 0, 0, 10] ++ List.replicate 8 65 ++
    [0, 15, 66, 64]

/-- Four of its shares are cancelled. -/
def cancelFrame : List Byte := [0, 23, 88, 0, 1] ++ List.replicate 15 0 ++ [7, 0, 0, 0, 4]

variable {read : FrameRead} {reads : List FrameRead} {event : ItchEvent}

theorem decodedEvents_some (h : read.event? = some event) :
    decodedEvents (read :: reads) = event :: decodedEvents reads := by
  rw [decodedEvents, h]

theorem decodedEvents_none (h : read.event? = none) : decodedEvents (read :: reads) = [] := by
  rw [decodedEvents, h]

theorem endsInError_some (h : read.event? = some event) :
    endsInError (read :: reads) = endsInError reads := by
  rw [endsInError, h]

theorem endsInError_none (h : read.event? = none) : endsInError (read :: reads) = true := by
  rw [endsInError, h]

/-! ## What was done -/

def pushedEvents (events : List ReplayEvent) : List ItchEvent :=
  events.filterMap fun
    | .pushed event => some event
    | _ => none

def appliedCalls (events : List ReplayEvent) : List (Placement × ItchEvent) :=
  events.filterMap fun
    | .applied place event _ => some (place, event)
    | _ => none

def appliedEvents (events : List ReplayEvent) : List ItchEvent := (appliedCalls events).map Prod.snd

def appliedResults (events : List ReplayEvent) : List ApplyResult :=
  events.filterMap fun
    | .applied _ _ result => some result
    | _ => none

theorem pushedEvents_append (events more : List ReplayEvent) :
    pushedEvents (events ++ more) = pushedEvents events ++ pushedEvents more :=
  List.filterMap_append

theorem appliedCalls_append (events more : List ReplayEvent) :
    appliedCalls (events ++ more) = appliedCalls events ++ appliedCalls more :=
  List.filterMap_append

theorem appliedEvents_append (events more : List ReplayEvent) :
    appliedEvents (events ++ more) = appliedEvents events ++ appliedEvents more := by
  unfold appliedEvents
  rw [appliedCalls_append, List.map_append]

theorem appliedResults_append (events more : List ReplayEvent) :
    appliedResults (events ++ more) = appliedResults events ++ appliedResults more :=
  List.filterMap_append

/-! ## The invariant -/

def ReplayProducer.call? : ReplayProducer → Option (Emplacing ItchEvent ItchEvent)
  | .pushing call => some call
  | _ => none

def ReplayConsumer.call? : ReplayConsumer → Option (Popping ItchEvent)
  | .popping call => some call
  | _ => none

namespace Pipeline

/-- What the producer has still to push, and how it will end. -/
def ProducerKnows (source : List FrameRead) (pushed : List ItchEvent) (s : Pipeline) : Prop :=
  match s.producer with
  | .reading =>
    decodedEvents source = pushed ++ decodedEvents s.reads ∧
      endsInError source = endsInError s.reads ∧ s.producerFailed = false
  | .pushing call =>
    decodedEvents source = pushed ++ call.given :: decodedEvents s.reads ∧
      endsInError source = endsInError s.reads ∧ s.producerFailed = false ∧
      ∀ event, (call.construction event).1 = some event
  | .storeFailed => decodedEvents source = pushed ∧ endsInError source = true
  | .storeDone | .finished => decodedEvents source = pushed ∧ s.producerFailed = endsInError source

/-- What the consumer has still to apply. From `empty` on it has seen that the producer is done. -/
def ConsumerKnows (popped queued applied : List ItchEvent) (s : Pipeline) : Prop :=
  match s.consumer with
  | .loadDone | .popping _ => popped = applied
  | .empty point =>
    popped = applied ∧ s.producerDone = true ∧
      ∀ read, point = .loadOther read → read = BitVec.ofNat 64 popped.length
  | .applying => popped = applied ++ [s.queued]
  | .exited => popped = applied ∧ s.producerDone = true ∧ queued = []
  | .ended failed =>
    popped = applied ∧ s.producerDone = true ∧ queued = [] ∧ failed = s.producerFailed

/-- The state after these events, with `popped` the events that came off the ring and `queued` the
ones on it. -/
structure Between (capacity : BitVec 64) (limits : EngineLimits) (source : List FrameRead)
    (events : List ReplayEvent) (popped queued : List ItchEvent) (s : Pipeline) : Prop where
  ring : s.queue.Invariant capacity s.producer.call? s.consumer.call? popped queued
  pushed : pushedEvents events = popped ++ queued
  producer : ProducerKnows source (pushedEvents events) s
  consumer : ConsumerKnows popped queued (appliedEvents events) s
  counted : s.decodedMessages = BitVec.ofNat 64 (pushedEvents events).length
  replayed : MatchingEngine.Replayed limits (appliedCalls events) (appliedResults events) s.engine
  done : s.producerDone = true → s.producer = .finished

def Invariant (capacity : BitVec 64) (limits : EngineLimits) (source : List FrameRead)
    (events : List ReplayEvent) (s : Pipeline) : Prop :=
  ∃ popped queued, Between capacity limits source events popped queued s

variable {capacity : BitVec 64} {limits : EngineLimits} {source : List FrameRead}
  {events : List ReplayEvent} {popped queued queued' applied : List ItchEvent} {s s' : Pipeline}

theorem start_invariant {memory : SlotMemory} {queue : SpscRing ItchEvent}
    (h : SpscRing.new memory capacity = .ok queue) (limits : EngineLimits) (source : List FrameRead)
    (unused : ItchEvent) :
    Invariant capacity limits source [] (start queue limits source unused) :=
  ⟨[], [], SpscRing.new_invariant h, rfl, ⟨rfl, rfl, rfl⟩, rfl, rfl,
    MatchingEngine.new_replayed limits, fun hd => by cases hd⟩

/-- While the producer is not done, the consumer knows nothing of the ring. -/
theorem ConsumerKnows.mono (h : ConsumerKnows popped queued applied s)
    (hdone : s.producerDone = false) (hconsumer : s'.consumer = s.consumer)
    (hqueued : s'.queued = s.queued) : ConsumerKnows popped queued' applied s' := by
  unfold ConsumerKnows at h ⊢
  rw [hconsumer, hqueued]
  cases hc : s.consumer with
  | loadDone => simpa only [hc] using h
  | popping call => simpa only [hc] using h
  | applying => simpa only [hc] using h
  | empty point =>
    simp only [hc, hdone] at h
    cases h.2.1
  | exited =>
    simp only [hc, hdone] at h
    cases h.2.1
  | ended failed =>
    simp only [hc, hdone] at h
    cases h.2.1

/-- A step that is neither a push nor an application. -/
theorem Between.silent (h : Between capacity limits source events popped queued s)
    (hring : s'.queue.Invariant capacity s'.producer.call? s'.consumer.call? popped queued)
    (hproducer : ProducerKnows source (pushedEvents events) s')
    (hconsumer : ConsumerKnows popped queued (appliedEvents events) s')
    (hcounted : s'.decodedMessages = s.decodedMessages) (hengine : s'.engine = s.engine)
    (hdone : s'.producerDone = true → s'.producer = .finished) :
    Invariant capacity limits source (events ++ []) s' := by
  rw [List.append_nil]
  refine ⟨popped, queued, hring, h.pushed, hproducer, hconsumer, ?_, ?_, hdone⟩
  · rw [hcounted]
    exact h.counted
  · rw [hengine]
    exact h.replayed

/-! ## The producer -/

variable {moved : ItchEvent → ItchEvent}

/-- The end of the file, an error, or an event to push. -/
theorem reading_ok (h : Between capacity limits source events popped queued s)
    (hp : s.producer = .reading) :
    ∃ s', (producerStep moved).run s = .ok [] s' ∧
      Invariant capacity limits source (events ++ []) s' := by
  have hring := h.ring
  have hknows := h.producer
  have hdone := h.done
  have hconsumer := h.consumer
  obtain ⟨queue, flag, failed, reason, decoded, reads, producer, engine, unused, consumer⟩ := s
  cases hp
  have hflag : flag = false := Bool.eq_false_iff.mpr fun hf => by cases hdone hf
  have hdone' : ∀ producer, flag = true → producer = ReplayProducer.finished :=
    fun _ hf => by cases hdone hf
  obtain ⟨hsource, hend, hfailed⟩ := hknows
  cases reads with
  | nil =>
    refine ⟨_, rfl, h.silent hring ?_ (hconsumer.mono hflag rfl rfl) rfl rfl (hdone' _)⟩
    exact ⟨hsource.trans (List.append_nil _), hfailed.trans hend.symm⟩
  | cons read reads =>
    -- both errors end the loop
    have hstops : ∀ reason', read.event? = none → Invariant capacity limits source (events ++ [])
        ⟨queue, flag, failed, reason', decoded, reads, .storeFailed, engine, unused, consumer⟩ := by
      intro reason' hnone
      rw [decodedEvents_none hnone, List.append_nil] at hsource
      rw [endsInError_none hnone] at hend
      exact h.silent hring ⟨hsource, hend⟩ (hconsumer.mono hflag rfl rfl) rfl rfl (hdone' _)
    cases read with
    | error reason' => exact ⟨_, rfl, hstops reason' rfl⟩
    | frame bytes =>
      obtain ⟨result, hframe⟩ := decodeFrame_total bytes
      have run := observe_ok (f := fun _ : Pipeline => decodeFrame bytes) (s := ⟨queue, flag, failed,
        reason, decoded, .frame bytes :: reads, .reading, engine, unused, consumer⟩) hframe
      cases result with
      | error reason' => exact ⟨_, run_bind_ok run, hstops reason' (FrameRead.event?_frame hframe)⟩
      | ok event =>
        have hsome := FrameRead.event?_frame hframe
        rw [decodedEvents_some hsome] at hsource
        rw [endsInError_some hsome] at hend
        exact ⟨_, run_bind_ok run, h.silent (hring.startEmplace (moveOf moved) event)
          ⟨hsource, hend, hfailed, fun _ => rfl⟩ (hconsumer.mono hflag rfl rfl) rfl rfl (hdone' _)⟩

/-- A step of `try_push`; where the ring is full, the event is as it was for the next try. -/
theorem pushing_ok {call : Emplacing ItchEvent ItchEvent}
    (h : Between capacity limits source events popped queued s) (hp : s.producer = .pushing call) :
    ∃ events' s', (producerStep moved).run s = .ok events' s' ∧
      Invariant capacity limits source (events ++ events') s' := by
  have hring := h.ring
  have hknows := h.producer
  have hdone := h.done
  have hconsumer := h.consumer
  obtain ⟨queue, flag, failed, reason, decoded, reads, producer, engine, unused, consumer⟩ := s
  cases hp
  have hflag : flag = false := Bool.eq_false_iff.mpr fun hf => by cases hdone hf
  have hdone' : ∀ producer, flag = true → producer = ReplayProducer.finished :=
    fun _ hf => by cases hdone hf
  obtain ⟨hsource, hend, hfailed, hmoves⟩ := hknows
  obtain ⟨after, queue', run, hstep⟩ := hring.emplace_step
  have run' : (onQueue call.step).run ⟨queue, flag, failed, reason, decoded, reads, .pushing call,
      engine, unused, consumer⟩ = .ok after ⟨queue', flag, failed, reason, decoded, reads,
        .pushing call, engine, unused, consumer⟩ := zoom_ok run
  cases hstep with
  | @goesOn call' _ hnext _ _ hconstruction hgiven =>
    refine ⟨[], _, run_bind_ok run', h.silent hnext ?_ (hconsumer.mono hflag rfl rfl) rfl rfl
      (hdone' _)⟩
    refine ⟨?_, hend, hfailed, ?_⟩
    · rw [hgiven]
      exact hsource
    · rw [hconstruction]
      exact hmoves
  | @pushed object left _ hmake hnext =>
    obtain rfl : object = call.given := by
      have := hmoves call.given
      rw [hmake] at this
      exact Option.some.inj this
    have hpushed : pushedEvents (events ++ [.pushed call.given]) =
        pushedEvents events ++ [call.given] := pushedEvents_append _ _
    have hcalls : appliedCalls (events ++ [.pushed call.given]) = appliedCalls events :=
      (appliedCalls_append _ _).trans (List.append_nil _)
    have hresults : appliedResults (events ++ [.pushed call.given]) = appliedResults events :=
      (appliedResults_append _ _).trans (List.append_nil _)
    refine ⟨[.pushed call.given], _, run_bind_ok run', popped, queued ++ [call.given], hnext, ?_, ?_,
      ?_, ?_, ?_, hdone' _⟩
    · rw [hpushed, h.pushed, List.append_assoc]
    · rw [hpushed]
      exact ⟨by rw [List.append_assoc]; exact hsource, hend, hfailed⟩
    · unfold appliedEvents
      rw [hcalls]
      exact hconsumer.mono hflag rfl rfl
    · rw [hpushed, List.length_append, List.length_singleton, ← SpscRing.ofNat_succ]
      exact congrArg (· + 1) h.counted
    · rw [hcalls, hresults]
      exact h.replayed
  | full _ hnext =>
    exact ⟨[], _, run_bind_ok run', h.silent (hnext.startEmplace (moveOf moved) call.given)
      ⟨hsource, hend, hfailed, fun _ => rfl⟩ (hconsumer.mono hflag rfl rfl) rfl rfl (hdone' _)⟩
  | threw _ hmake _ =>
    have := hmoves call.given
    rw [hmake] at this
    cases this

theorem producerStep_ok (h : Invariant capacity limits source events s) :
    ∃ events' s', (producerStep moved).run s = .ok events' s' ∧
      Invariant capacity limits source (events ++ events') s' := by
  obtain ⟨popped, queued, h⟩ := h
  have hring := h.ring
  have hknows := h.producer
  have hdone := h.done
  have hconsumer := h.consumer
  obtain ⟨queue, flag, failed, reason, decoded, reads, producer, engine, unused, consumer⟩ := s
  cases producer with
  | reading => exact ⟨[], reading_ok h rfl⟩
  | pushing call => exact pushing_ok h rfl
  | storeFailed =>
    have hflag : flag = false := Bool.eq_false_iff.mpr fun hf => by cases hdone hf
    refine ⟨[], _, rfl, h.silent hring ⟨hknows.1, hknows.2.symm⟩ (hconsumer.mono hflag rfl rfl) rfl
      rfl ?_⟩
    exact fun hf => by cases hdone hf
  | storeDone =>
    have hflag : flag = false := Bool.eq_false_iff.mpr fun hf => by cases hdone hf
    exact ⟨[], _, rfl, h.silent hring hknows (hconsumer.mono hflag rfl rfl) rfl rfl fun _ => rfl⟩
  | finished => exact ⟨[], _, rfl, h.silent hring hknows hconsumer rfl rfl hdone⟩

/-! ## The consumer -/

theorem applying_ok (h : Between capacity limits source events popped queued s)
    (hc : s.consumer = .applying) (place : Placement) :
    ∃ events' s', (consumerStep place).run s = .ok events' s' ∧
      Invariant capacity limits source (events ++ events') s' := by
  have hring := h.ring
  have hknows := h.consumer
  have hproducer := h.producer
  obtain ⟨queue, flag, failed, reason, decoded, reads, producer, engine, event, consumer⟩ := s
  cases hc
  obtain ⟨result, engine', run, hreplayed⟩ := h.replayed.apply place event
  have run' : (onEngine (MatchingEngine.apply (.reliable place) event)).run ⟨queue, flag, failed,
      reason, decoded, reads, producer, engine, event, .applying⟩ = .ok result ⟨queue, flag, failed,
        reason, decoded, reads, producer, engine', event, .applying⟩ := zoom_ok run
  have hpushed : pushedEvents (events ++ [.applied place event result]) = pushedEvents events :=
    (pushedEvents_append _ _).trans (List.append_nil _)
  refine ⟨[.applied place event result], _, run_bind_ok run', popped, queued, hring, ?_, ?_, ?_, ?_,
    ?_, h.done⟩
  · rw [hpushed]
    exact h.pushed
  · rw [hpushed]
    exact hproducer
  · rw [appliedEvents_append]
    exact hknows
  · rw [hpushed]
    exact h.counted
  · rw [appliedCalls_append, appliedResults_append]
    exact hreplayed

/-- The second half of the exit test: an empty ring, seen after the flag, stays empty. -/
theorem testing_ok {point : QueryPoint} (h : Between capacity limits source events popped queued s)
    (hc : s.consumer = .empty point) (place : Placement) :
    ∃ s', (consumerStep place).run s = .ok [] s' ∧
      Invariant capacity limits source (events ++ []) s' := by
  have hring := h.ring
  have hknows := h.consumer
  have hproducer := h.producer
  obtain ⟨queue, flag, failed, reason, decoded, reads, producer, engine, unused, consumer⟩ := s
  cases hc
  obtain ⟨hpopped, hflag, hread⟩ := hknows
  cases point with
  | loadOwn =>
    refine ⟨_, rfl, h.silent hring hproducer ⟨hpopped, hflag, ?_⟩ rfl rfl h.done⟩
    rintro read ⟨⟩
    exact hring.readIndex
  | loadOther read =>
    have hempty := hring.empty_iff
    rw [show queue.readIndex = read from hring.readIndex.trans (hread read rfl).symm] at hempty
    have run : (SpscRing.emptyStep (.loadOther read)).run queue =
        .ok (.inr (decide (queued = []))) queue := by
      show EStateM.Result.ok (Sum.inr (decide (read = queue.writeIndex))) queue = _
      rw [decide_eq_decide.mpr hempty]
    have run' : (onQueue (SpscRing.emptyStep (.loadOther read))).run ⟨queue, flag, failed, reason,
        decoded, reads, producer, engine, unused, .empty (.loadOther read)⟩ =
          .ok (.inr (decide (queued = []))) ⟨queue, flag, failed, reason, decoded, reads, producer,
            engine, unused, .empty (.loadOther read)⟩ := zoom_ok run
    have hget : ∀ s : Pipeline, (get : EStateM Fault Pipeline Pipeline).run s = .ok s s := fun _ => rfl
    by_cases hqueued : queued = []
    · rw [decide_eq_true hqueued] at run'
      refine ⟨⟨queue, flag, failed, reason, decoded, reads, producer, engine, unused, .exited⟩, ?_,
        h.silent hring hproducer ⟨hpopped, hflag, hqueued⟩ rfl rfl h.done⟩
      unfold consumerStep
      rw [run_bind_ok (hget _)]
      simp only
      rw [run_bind_ok run']
      rfl
    · rw [decide_eq_false hqueued] at run'
      refine ⟨⟨queue, flag, failed, reason, decoded, reads, producer, engine, unused,
        .popping (.start unused)⟩, ?_,
        h.silent (hring.startPop unused) hproducer hpopped rfl rfl h.done⟩
      unfold consumerStep
      rw [run_bind_ok (hget _)]
      simp only
      rw [run_bind_ok run']
      rfl

/-- A step of `try_pop`. -/
theorem popping_ok {call : Popping ItchEvent}
    (h : Between capacity limits source events popped queued s) (hc : s.consumer = .popping call)
    (place : Placement) :
    ∃ s', (consumerStep place).run s = .ok [] s' ∧
      Invariant capacity limits source (events ++ []) s' := by
  have hring := h.ring
  have hknows := h.consumer
  have hproducer := h.producer
  obtain ⟨queue, flag, failed, reason, decoded, reads, producer, engine, unused, consumer⟩ := s
  cases hc
  obtain ⟨after, queue', run, hstep⟩ := hring.pop_step
  have run' : (onQueue call.step).run ⟨queue, flag, failed, reason, decoded, reads, producer, engine,
      unused, .popping call⟩ = .ok after ⟨queue', flag, failed, reason, decoded, reads, producer,
        engine, unused, .popping call⟩ := zoom_ok run
  cases hstep with
  | goesOn hnext => exact ⟨_, run_bind_ok run', h.silent hnext hproducer hknows rfl rfl h.done⟩
  | empty _ _ hnext => exact ⟨_, run_bind_ok run', h.silent hnext hproducer hknows rfl rfl h.done⟩
  | @popped object rest _ hqueued hnext =>
    refine ⟨_, run_bind_ok run', ?_⟩
    rw [List.append_nil]
    refine ⟨popped ++ [object], rest, hnext, ?_, hproducer, ?_, h.counted, h.replayed, h.done⟩
    · rw [h.pushed, hqueued, List.append_assoc]
      rfl
    · exact congrArg (· ++ [object]) hknows

theorem consumerStep_ok (h : Invariant capacity limits source events s) (place : Placement) :
    ∃ events' s', (consumerStep place).run s = .ok events' s' ∧
      Invariant capacity limits source (events ++ events') s' := by
  obtain ⟨popped, queued, h⟩ := h
  have hring := h.ring
  have hknows := h.consumer
  have hproducer := h.producer
  have hdone := h.done
  obtain ⟨queue, flag, failed, reason, decoded, reads, producer, engine, unused, consumer⟩ := s
  cases consumer with
  | loadDone =>
    cases flag with
    | true =>
      refine ⟨[], _, rfl, h.silent hring hproducer ⟨hknows, rfl, ?_⟩ rfl rfl hdone⟩
      rintro read ⟨⟩
    | false =>
      exact ⟨[], _, rfl, h.silent (hring.startPop unused) hproducer hknows rfl rfl hdone⟩
  | empty point => exact ⟨[], testing_ok h rfl place⟩
  | popping call => exact ⟨[], popping_ok h rfl place⟩
  | applying => exact applying_ok h rfl place
  | exited =>
    obtain ⟨hpopped, hflag, hqueued⟩ := hknows
    cases hdone hflag
    exact ⟨[], _, rfl, h.silent hring hproducer ⟨hpopped, hflag, hqueued, rfl⟩ rfl rfl hdone⟩
  | ended failed' => exact ⟨[], _, rfl, h.silent hring hproducer hknows rfl rfl hdone⟩

/-! ## Runs -/

/-- **One step of either thread.** -/
theorem step_preserves : Preserves (step moved) (Invariant capacity limits source) := by
  intro before s action h
  cases action with
  | producer => exact producerStep_ok h
  | consumer place => exact consumerStep_ok h place

/-- The loop of the consumer has ended. -/
def HasExited (s : Pipeline) : Prop := s.consumer = .exited ∨ ∃ failed, s.consumer = .ended failed

instance (s : Pipeline) : Decidable (HasExited s) :=
  match h : s.consumer with
  | .exited => .isTrue (Or.inl h)
  | .ended failed => .isTrue (Or.inr ⟨failed, h⟩)
  | .loadDone | .empty _ | .popping _ | .applying =>
    .isFalse fun hexit => by
      unfold HasExited at hexit
      simp only [h, reduceCtorEq, exists_const, or_self] at hexit

/-- What holds when the loop has ended: everything that the file decodes to, up to its end or its
first error, was pushed, and what was pushed was applied. -/
structure Shutdown (limits : EngineLimits) (source : List FrameRead) (events : List ReplayEvent)
    (s : Pipeline) : Prop where
  applied : appliedEvents events = pushedEvents events
  pushed : pushedEvents events = decodedEvents source
  messages : s.engine.stats.messages = s.decodedMessages
  engine : (MatchingEngine.replay (appliedCalls events)).run (.new limits) =
    .ok (appliedResults events) s.engine
  failed : s.producerFailed = endsInError source

theorem Invariant.shutdown (h : Invariant capacity limits source events s) (hexit : HasExited s) :
    Shutdown limits source events s := by
  obtain ⟨popped, queued, h⟩ := h
  have hknows : popped = appliedEvents events ∧ s.producerDone = true ∧ queued = [] := by
    have hconsumer := h.consumer
    unfold ConsumerKnows at hconsumer
    rcases hexit with hc | ⟨failed, hc⟩
    · simpa only [hc] using hconsumer
    · simp only [hc] at hconsumer
      exact ⟨hconsumer.1, hconsumer.2.1, hconsumer.2.2.1⟩
  obtain ⟨hpopped, hdone, hqueued⟩ := hknows
  have hproducer := h.producer
  unfold ProducerKnows at hproducer
  simp only [h.done hdone] at hproducer
  have happlied : appliedEvents events = pushedEvents events := by
    rw [h.pushed, hqueued, List.append_nil, hpopped]
  refine ⟨happlied, hproducer.1.symm, ?_, h.replayed.run, hproducer.2⟩
  rw [h.replayed.messages, h.counted, ← happlied]
  unfold appliedEvents
  rw [List.length_map]

/-- **The concurrent replay is the sequential replay**, once the ring is constructed. No step of a run
goes wrong, and whenever the consumer's loop has ended, the engine is the left fold of `apply` over
the events pushed. -/
theorem replay_sequential {capacity : BitVec 64} {memory : SlotMemory}
    (hcapacity : capacity.toNat.isPowerOfTwo) (hmemory : memory.Grants capacity)
    (moved : ItchEvent → ItchEvent) (limits : EngineLimits) (source : List FrameRead)
    (unused : ItchEvent) (actions : List ReplayAction) :
    ∃ queue events s, SpscRing.new memory capacity = .ok queue ∧
      (trace (step moved) actions).run (start queue limits source unused) = .ok events s ∧
      (HasExited s → Shutdown limits source events s) := by
  obtain ⟨queue, hqueue⟩ := SpscRing.new_ok (T := ItchEvent) hcapacity hmemory
  obtain ⟨events, s, run, hinv⟩ :=
    step_preserves.trace actions (start_invariant hqueue limits source unused)
  exact ⟨queue, events, s, hqueue, run, hinv.shutdown⟩

/-- Through a ring of one slot: the producer takes thirty turns, in which its second push is refused,
and then the threads alternate. -/
theorem replay_sequential_two :
    let source : List FrameRead := [.frame addFrame, .frame cancelFrame]
    let actions := List.replicate 30 .producer ++
      (List.replicate 30 [.consumer .bump, .producer]).flatten
    ∃ queue events s, SpscRing.new ⟨64, 1024, true⟩ 1 = .ok queue ∧
      (trace (step id) actions).run (start queue {} source (.skippedMessage ⟨0, none⟩)) =
        .ok events s ∧
      (events.map fun event => (pushedEvents [event]).length) = [1, 0, 1, 0] ∧
      s.engine.restingOrderCount = 1 ∧ HasExited s ∧ Shutdown {} source events s := by
  intro source actions
  obtain ⟨queue, events, s, hqueue, run, hshutdown⟩ := @replay_sequential 1 ⟨64, 1024, true⟩ ⟨0, rfl⟩
    (by decide) id {} source (.skippedMessage ⟨0, none⟩) actions
  obtain ⟨_, rfl⟩ := SpscRing.new_eq_ok hqueue
  have hparts : ((events.map fun event => (pushedEvents [event]).length), s.engine.restingOrderCount,
      decide (HasExited s)) = ([1, 0, 1, 0], 1, true) :=
    of_evaluate run (fun events s => ((events.map fun event => (pushedEvents [event]).length),
      s.engine.restingOrderCount, decide (HasExited s))) (by decide +kernel)
  obtain ⟨hkinds, hresting, hexit⟩ := by simpa only [Prod.mk.injEq] using hparts
  have hexited : HasExited s := of_decide_eq_true hexit
  exact ⟨_, events, s, rfl, run, hkinds, hresting, hexited, hshutdown hexited⟩

end Pipeline

end Lob
