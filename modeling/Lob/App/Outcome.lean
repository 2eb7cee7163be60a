import Lob.App.Main
import Lob.App.Termination
import Lob.Engine.Lifecycle

/-!
# The outcome of the program

What `main` prints and returns does not depend on how its threads take turns: it is what a program
without threads would print that decodes the whole file and then replays its events. Only the measured
times are those of the run.
-/

namespace Lob

open Basis

/-! ## The program without threads -/

/-- The lines on the two streams, and the exit status. -/
structure Output where
  out : List String
  err : List String
  status : ℕ

namespace ReplayConfig

variable (config : ReplayConfig) (events : List ItchEvent) (readings : List Readings)

/-- The engine that the events make. -/
def engine : ReferenceEngine := (ReferenceEngine.new config.engineLimits).replay events

def results : List ApplyResult := (ReferenceEngine.new config.engineLimits).results events

/-- The counter of refused events, in its word. -/
def rejected : BitVec 64 :=
  BitVec.ofNat 64 ((ReferenceEngine.new config.engineLimits).rejections events)

/-- The checkpoint after these events, where there is one. -/
def checkpoint : List String :=
  let applied := BitVec.ofNat 64 events.length
  if config.checkpointEvery ≠ 0 ∧ applied % config.checkpointEvery = 0 then
    [checkpointLine applied (size (config.engine events).books) (config.engine events).restingOrders
      (config.rejected events)]
  else []

/-- The checkpoints on the way. -/
def checkpoints : List String :=
  (List.range events.length).flatMap fun n => config.checkpoint (events.take (n + 1))

/-- How long the events with an outcome took. -/
def durations (action : ApplyAction) : List (BitVec 64) :=
  (((config.results events).zip readings).filter fun pair => pair.1.action = action).map
    fun pair => pair.2.operationNs

def latency : OperationLatency where
  add := .recordAll (config.durations events readings .Added)
  cancel := .recordAll (config.durations events readings .Cancelled)
  execution := .recordAll (config.durations events readings .Executed)
  replace := .recordAll (config.durations events readings .Replaced)

def endToEnd : HdrHistogram := .recordAll (readings.map Readings.endToEndNs)

/-- The snapshot, on the two streams. -/
def snapshotLines : List String × List String :=
  match config.snapshotLocate with
  | none => ([], [])
  | some locate =>
    match (config.engine events).books.lookup locate with
    | none => ([], [snapshotMissingLine locate])
    | some book => ([snapshotLine locate (book.bestDepth .Buy) (book.bestDepth .Sell)], [])

/-- What the program without threads prints and returns. -/
def output (source : List FrameRead) (throughput : BitVec 64) : Output :=
  let events := decodedEvents source
  let count := BitVec.ofNat 64 events.length
  if endsInError source then
    ⟨[], config.checkpoints events ++ [decodeErrorLine (errorText source)], 1⟩
  else
    { out := replayLine count count (size (config.engine events).books)
        (config.engine events).restingOrders (config.rejected events) throughput ::
          summaryLines (config.latency events readings) (endToEnd readings) ++
            (config.snapshotLines events).1
      err := config.checkpoints events ++ (config.snapshotLines events).2
      status := if config.failOnReject && config.rejected events != 0 then 1 else 0 }

/-! ## One more event -/

variable {config events readings} {event : ItchEvent} {reading : Readings}

theorem results_concat : config.results (events ++ [event]) =
    config.results events ++ [((config.engine events).apply event).1] :=
  ReferenceEngine.results_concat _ _

theorem checkpoints_concat : config.checkpoints (events ++ [event]) =
    config.checkpoints events ++ config.checkpoint (events ++ [event]) := by
  unfold checkpoints
  rw [List.length_append, List.length_singleton, List.range_succ, List.flatMap_append,
    List.flatMap_singleton, List.take_of_length_le (by rw [List.length_append]; exact le_rfl)]
  congr 1
  refine List.flatMap_congr fun n hn => ?_
  rw [List.take_append_of_le_length (List.mem_range.mp hn)]

theorem durations_concat (h : readings.length = events.length) (action : ApplyAction) :
    config.durations (events ++ [event]) (readings ++ [reading]) action =
      config.durations events readings action ++
        if ((config.engine events).apply event).1.action = action then [reading.operationNs]
        else [] := by
  have hlength : (config.results events).length = readings.length :=
    (ReferenceEngine.length_results events).trans h.symm
  unfold durations
  rw [results_concat, List.zip_append hlength, List.filter_append, List.map_append]
  congr 1
  by_cases e : ((config.engine events).apply event).1.action = action <;> simp [e]

theorem latency_concat (h : readings.length = events.length) :
    config.latency (events ++ [event]) (readings ++ [reading]) =
      recordLatency (config.latency events readings) ((config.engine events).apply event).1.action
        reading.operationNs := by
  have hrecord : ∀ values value, HdrHistogram.recordAll (values ++ [value]) =
      (HdrHistogram.recordAll values).record value := fun values value => List.foldl_append
  unfold latency
  simp only [durations_concat h]
  cases ((config.engine events).apply event).1.action <;>
    simp [recordLatency, hrecord]

theorem endToEnd_concat :
    endToEnd (readings ++ [reading]) = (endToEnd readings).record reading.endToEndNs := by
  unfold endToEnd HdrHistogram.recordAll
  rw [List.map_append, List.foldl_append]
  rfl

end ReplayConfig

/-! ## What a step of a thread leaves alone -/

namespace Pipeline

variable {s s' : Pipeline} {source : List FrameRead} {pushed : List ItchEvent}
  {events : List ReplayEvent} {moved : ItchEvent → ItchEvent} {place : Placement}

theorem ProducerMoves.keeps (h : ProducerMoves moved s events s') :
    s'.consumer = s.consumer ∧ s'.engine = s.engine ∧ appliedEvents events = [] := by
  cases h <;> exact ⟨rfl, rfl, rfl⟩

theorem ConsumerMoves.keeps (h : ConsumerMoves place s events s') :
    s'.producer = s.producer ∧ s'.reads = s.reads ∧ s'.decodeError = s.decodeError := by
  cases h <;> exact ⟨rfl, rfl, rfl⟩

/-- Most steps apply nothing; a consumer that has ended stays where it is. -/
theorem ConsumerMoves.emits (h : ConsumerMoves place s events s') :
    (events = [] ∧ ∀ failed, s.consumer = .ended failed → s'.consumer = .ended failed) ∨
      ∃ result, events = [.applied place s.queued result] ∧ s.consumer = .applying ∧
        s'.consumer = .loadDone := by
  cases h with
  | applies hc _ => exact Or.inr ⟨_, rfl, hc, rfl⟩
  | rests hc => exact Or.inl ⟨rfl, fun _ h => h⟩
  | waits hc _ => exact Or.inl ⟨rfl, fun _ h => h⟩
  | _ =>
    refine Or.inl ⟨rfl, fun failed h => ?_⟩
    simp_all

/-- The reason for which the producer has failed or will fail. -/
def ReasonKnown (source : List FrameRead) (s : Pipeline) : Prop :=
  match s.producer with
  | .reading | .pushing _ => errorText source = errorText s.reads
  | .storeFailed => s.decodeError = errorText source
  | .storeDone | .finished => endsInError source = true → s.decodeError = errorText source

theorem ConsumerMoves.reason (h : ConsumerMoves place s events s') (hs : ReasonKnown source s) :
    ReasonKnown source s' := by
  obtain ⟨hproducer, hreads, herror⟩ := h.keeps
  unfold ReasonKnown at hs ⊢
  rw [hproducer, hreads, herror]
  exact hs

theorem ProducerMoves.reason (h : ProducerMoves moved s events s')
    (hknows : ProducerKnows source pushed s) (hs : ReasonKnown source s) :
    ReasonKnown source s' := by
  unfold ProducerKnows at hknows
  unfold ReasonKnown at hs
  cases h with
  | ends hp hr =>
    rw [hp] at hknows
    -- no error was found
    exact fun herror => by
      rw [hknows.2.1, hr] at herror
      cases herror
  | fails hp hr hnone =>
    simp only [hp, hr, errorText_none hnone] at hs
    exact hs.symm
  | starts hp hr hsome =>
    simp only [hp, hr, errorText_some hsome] at hs
    exact hs
  | goesOn hp _ =>
    rw [hp] at hs
    exact hs
  | pushed hp _ =>
    rw [hp] at hs
    exact hs
  | full hp _ =>
    rw [hp] at hs
    exact hs
  | storesFailed hp =>
    rw [hp] at hs
    exact fun _ => hs
  | storesDone hp =>
    rw [hp] at hs
    exact hs
  | rests hp =>
    unfold ReasonKnown
    exact hs

end Pipeline

/-! ## The program -/

namespace Main

open ReplayConfig

variable {config : ReplayConfig} {source : List FrameRead} {applied : List ItchEvent}
  {readings : List Readings} {s s' : Main} {moved : ItchEvent → ItchEvent}

/-- What was measured while these events were applied. -/
structure Measured (config : ReplayConfig) (applied : List ItchEvent) (readings : List Readings)
    (s : Main) : Prop where
  length : readings.length = applied.length
  latency : s.latency = config.latency applied readings
  endToEnd : s.endToEnd = ReplayConfig.endToEnd readings
  appliedMessages : s.appliedMessages = BitVec.ofNat 64 applied.length

/-- What `main` has printed and returned. -/
def output (s : Main) : Option Output := s.status.map fun status => ⟨s.out, s.err, status⟩

/-- What stands on the streams: the checkpoints of the events so far, or in the end the whole output. -/
def Written (config : ReplayConfig) (source : List FrameRead) (applied : List ItchEvent)
    (readings : List Readings) (s : Main) : Prop :=
  match s.status with
  | none => (∀ failed, s.pipeline.consumer ≠ .ended failed) ∧ s.out = [] ∧
    s.err = config.checkpoints applied
  | some _ => (∃ failed, s.pipeline.consumer = .ended failed) ∧
    ∃ throughput, s.output = some (config.output readings source throughput)

/-- What is known in every state of a run. -/
structure Invariant (config : ReplayConfig) (source : List FrameRead) (events : List ReplayEvent)
    (readings : List Readings) (s : Main) : Prop where
  running : Pipeline.Running config.ringCapacity config.engineLimits source events s.pipeline
  reason : Pipeline.ReasonKnown source s.pipeline
  measured : Measured config (appliedEvents events) readings s
  written : Written config source (appliedEvents events) readings s

/-- A fresh measurement. -/
theorem start_invariant {memory : SlotMemory} {queue : SpscRing ItchEvent}
    (h : SpscRing.new memory config.ringCapacity = .ok queue) (source : List FrameRead)
    (unused : ItchEvent) : Invariant config source [] [] (start config queue source unused) where
  running := Pipeline.start_running h config.engineLimits source unused
  reason := rfl
  measured := ⟨rfl, rfl, rfl, rfl⟩
  written := ⟨nofun, rfl, rfl⟩

theorem Measured.of_eq (h : Measured config applied readings s) (hlatency : s'.latency = s.latency)
    (hendToEnd : s'.endToEnd = s.endToEnd) (happlied : s'.appliedMessages = s.appliedMessages) :
    Measured config applied readings s' :=
  ⟨h.length, hlatency.trans h.latency, hendToEnd.trans h.endToEnd,
    happlied.trans h.appliedMessages⟩

/-! ## Measuring an event -/

/-- The engine behind these events, as `main` sees it. -/
structure Applied (config : ReplayConfig) (applied : List ItchEvent) (e : MatchingEngine) : Prop where
  represents : MatchingEngine.Represents e (config.engine applied)
  messages : e.stats.messages = BitVec.ofNat 64 applied.length
  rejected : e.stats.rejected = config.rejected applied

theorem applied_of_replayed {calls : List (Placement × ItchEvent)} {results : List ApplyResult}
    {e : MatchingEngine} (h : MatchingEngine.Replayed config.engineLimits calls results e) :
    results = config.results (calls.map Prod.snd) ∧ Applied config (calls.map Prod.snd) e := by
  obtain ⟨hresults, hrejected⟩ := h.tallied
  refine ⟨hresults, h.represents, ?_, hrejected⟩
  rw [List.length_map]
  exact h.messages

theorem Measured.concat (h : Measured config applied readings s) (event : ItchEvent)
    (reading : Readings) : Measured config (applied ++ [event]) (readings ++ [reading]) { s with
      latency := recordLatency s.latency ((config.engine applied).apply event).1.action
        reading.operationNs
      endToEnd := s.endToEnd.record reading.endToEndNs
      appliedMessages := s.appliedMessages + 1 } where
  length := by
    rw [List.length_append, List.length_append, h.length]
    rfl
  latency := by
    rw [latency_concat h.length, ← h.latency]
  endToEnd := by
    rw [endToEnd_concat, ← h.endToEnd]
  appliedMessages := by
    rw [List.length_append, List.length_singleton, ← SpscRing.ofNat_succ, ← h.appliedMessages]

/-- **An event is measured**, and a checkpoint written where one is due. -/
theorem account_ok (h : Measured config applied readings s) {event : ItchEvent} (reading : Readings)
    (hengine : Applied config (applied ++ [event]) s.pipeline.engine)
    (herr : s.err = config.checkpoints applied) :
    ∃ s', (account config ((config.engine applied).apply event).1 reading).run s = .ok () s' ∧
      s'.pipeline = s.pipeline ∧ s'.out = s.out ∧ s'.status = s.status ∧
      s'.err = config.checkpoints (applied ++ [event]) ∧
      Measured config (applied ++ [event]) (readings ++ [reading]) s' := by
  have hmeasured := h.concat event reading
  have hcount := hmeasured.appliedMessages
  change s.appliedMessages + 1 = _ at hcount
  have hstart : (account config ((config.engine applied).apply event).1 reading).run s =
      (if config.checkpointEvery ≠ 0 ∧ (s.appliedMessages + 1) % config.checkpointEvery = 0 then
        modify fun s' : Main => { s' with
          err := s'.err ++ [checkpointLine s'.appliedMessages s.pipeline.engine.instrumentCount
            s.pipeline.engine.restingOrderCount.toNat s.pipeline.engine.stats.rejected] }
      else pure () : EStateM Fault Main Unit).run { s with
        latency := recordLatency s.latency ((config.engine applied).apply event).1.action
          reading.operationNs
        endToEnd := s.endToEnd.record reading.endToEndNs
        appliedMessages := s.appliedMessages + 1 } := rfl
  rw [hstart]
  have hline : config.checkpoints (applied ++ [event]) = _ := checkpoints_concat
  unfold checkpoint at hline
  by_cases hdue : config.checkpointEvery ≠ 0 ∧ (s.appliedMessages + 1) % config.checkpointEvery = 0
  · rw [if_pos hdue]
    refine ⟨_, rfl, rfl, rfl, rfl, ?_, hmeasured.of_eq rfl rfl rfl⟩
    rw [hcount] at hdue
    simp only [if_pos hdue] at hline
    rw [hline, ← herr, ← hcount, ← hengine.rejected, ← hengine.represents.count,
      ← hengine.represents.instrumentCount]
  · rw [if_neg hdue]
    refine ⟨_, rfl, rfl, rfl, rfl, ?_, hmeasured⟩
    rw [hcount] at hdue
    simp only [if_neg hdue, List.append_nil] at hline
    rw [hline, ← herr]

/-! ## The report -/

theorem snapshot_ok {e : MatchingEngine} (h : Applied config applied e) :
    snapshot config e = .ok (config.snapshotLines applied) := by
  unfold snapshot snapshotLines
  cases config.snapshotLocate with
  | none => rfl
  | some locate =>
    simp only
    cases hm : (config.engine applied).books.lookup locate with
    | none =>
      rw [h.represents.findBook_none hm]
      rfl
    | some r =>
      obtain ⟨b, _, hfind, hrep, _⟩ := h.represents.findBook_some hm
      simp only [hfind, ReferenceBook.observes_bestBidDepth hrep.observes,
        ReferenceBook.observes_bestAskDepth hrep.observes, except_ok_bind]
      rfl

theorem finish_failed (throughput : BitVec 64) (hended : s.pipeline.consumer = .ended true)
    (hstatus : s.status = none) : (finish config throughput).run s = .ok () { s with
      err := s.err ++ [decodeErrorLine s.pipeline.decodeError], status := some 1 } := by
  unfold finish
  rw [run_get_bind, hended, run_get_bind, hstatus]
  rfl

theorem finish_report (throughput : BitVec 64) (hended : s.pipeline.consumer = .ended false)
    (hstatus : s.status = none) :
    (finish config throughput).run s = (report config throughput).run s := by
  unfold finish
  rw [run_get_bind, hended, run_get_bind, hstatus]

theorem finish_running (throughput : BitVec 64)
    (h : ∀ failed, s.pipeline.consumer ≠ .ended failed) :
    (finish config throughput).run s = .ok () s := by
  unfold finish
  rw [run_get_bind, run_get_bind]
  split
  · exact absurd ‹_› (h true)
  · exact absurd ‹_› (h false)
  · rfl

theorem finish_returned (throughput : BitVec 64) {status : ℕ} (h : s.status = some status) :
    (finish config throughput).run s = .ok () s := by
  unfold finish
  rw [run_get_bind, run_get_bind, h]
  split
  · cases ‹some status = none›
  · cases ‹some status = none›
  · rfl

/-- **The end of the replay is reported** as the program without threads reports it. -/
theorem finish_ok {events : List ReplayEvent} {failed : Bool} (throughput : BitVec 64)
    (hrunning : Pipeline.Running config.ringCapacity config.engineLimits source events s.pipeline)
    (hreason : Pipeline.ReasonKnown source s.pipeline)
    (hmeasured : Measured config (appliedEvents events) readings s) (hout : s.out = [])
    (herr : s.err = config.checkpoints (appliedEvents events)) (hstatus : s.status = none)
    (hended : s.pipeline.consumer = .ended failed) :
    ∃ s', (finish config throughput).run s = .ok () s' ∧ s'.pipeline = s.pipeline ∧
      Measured config (appliedEvents events) readings s' ∧
      s'.output = some (config.output readings source throughput) := by
  obtain ⟨hfailed, hshutdown⟩ := hrunning.1.ended hended
  have hevents := hshutdown.applied.trans hshutdown.pushed
  obtain ⟨⟨popped, queued, hbetween⟩, _⟩ := hrunning
  have happlied : Applied config (appliedEvents events) s.pipeline.engine :=
    (applied_of_replayed hbetween.replayed).2
  have hcounted := hbetween.counted
  have hknows := hbetween.consumer
  unfold Pipeline.ConsumerKnows at hknows
  unfold Pipeline.ReasonKnown at hreason
  simp only [hended] at hknows
  simp only [hbetween.done hknows.2.1] at hreason
  rw [hshutdown.pushed] at hcounted
  rw [hevents] at happlied hmeasured herr ⊢
  unfold ReplayConfig.output
  cases failed with
  | true =>
    refine ⟨_, finish_failed throughput hended hstatus, rfl, hmeasured.of_eq rfl rfl rfl, ?_⟩
    rw [if_pos hfailed.symm, ← hreason hfailed.symm, ← herr, ← hout]
    rfl
  | false =>
    have hsnapshot := observe_ok (f := fun _ : Main => snapshot config s.pipeline.engine) (s := s)
      (snapshot_ok happlied)
    simp only
    rw [← hfailed, if_neg Bool.false_ne_true, ← herr, ← hcounted, ← hmeasured.latency,
      ← hmeasured.endToEnd, ← happlied.rejected, ← happlied.represents.count,
      ← happlied.represents.instrumentCount]
    generalize config.snapshotLines (decodedEvents source) = lines at hsnapshot ⊢
    refine ⟨_, (finish_report throughput hended hstatus).trans (run_bind_ok hsnapshot), rfl,
      hmeasured.of_eq rfl rfl rfl, ?_⟩
    show some (Output.mk (s.out ++ _ ++ lines.1) _ _) = _
    rw [hout, hshutdown.messages]
    rfl

/-! ## Runs -/

/-- Two states with the same streams. -/
theorem output_congr (hout : s'.out = s.out) (herr : s'.err = s.err) (hstatus : s'.status = s.status) :
    s'.output = s.output := by
  unfold output
  rw [hout, herr, hstatus]

theorem Written.of_eq (h : Written config source applied readings s)
    (hconsumer : s'.pipeline.consumer = s.pipeline.consumer) (hout : s'.out = s.out)
    (herr : s'.err = s.err) (hstatus : s'.status = s.status) :
    Written config source applied readings s' := by
  unfold Written at h ⊢
  rw [hconsumer, output_congr hout herr hstatus, hout, herr, hstatus]
  exact h

variable {events : List ReplayEvent}

/-- The invariant, and how far a step brings the replay. -/
def Steps (config : ReplayConfig) (source : List FrameRead) (readings : List Readings)
    (moved : ItchEvent → ItchEvent) (action : MainAction) (s : Main) : Prop :=
  ∃ readings' events' s', (step config moved action).run s = .ok readings' s' ∧
    Invariant config source events' (readings ++ readings') s' ∧
    Advances Pipeline.rank Pipeline.helper action.onPipeline.thread s.pipeline s'.pipeline

theorem producer_ok (h : Invariant config source events readings s) :
    Steps config source readings moved .producer s := by
  have hprogresses : Progresses (Pipeline.step moved) (Pipeline.Running config.ringCapacity
    config.engineLimits source) _ _ _ := Pipeline.step_progresses
  obtain ⟨emitted, pipeline', run, hrunning, hadvances⟩ :=
    hprogresses .producer h.running
  have hmoves := Pipeline.producerStep_moves run
  obtain ⟨hconsumer, _, hnone⟩ := hmoves.keeps
  have happlied : appliedEvents (events ++ emitted) = appliedEvents events := by
    rw [appliedEvents_append, hnone, List.append_nil]
  obtain ⟨⟨popped, queued, hbetween⟩, _⟩ := h.running
  refine ⟨[], events ++ emitted, { s with pipeline := pipeline' }, run_bind_ok (zoom_ok run),
    ⟨hrunning, hmoves.reason hbetween.producer h.reason, ?_, ?_⟩, hadvances⟩
  · rw [happlied, List.append_nil]
    exact h.measured.of_eq rfl rfl rfl
  · rw [happlied, List.append_nil]
    exact h.written.of_eq hconsumer rfl rfl rfl

/-- A step of the consumer that applies nothing; the last one reports. -/
theorem consumer_silent (moved : ItchEvent → ItchEvent) {place : Placement} (readings' : Readings)
    {pipeline' : Pipeline} (h : Invariant config source events readings s)
    (run : (Pipeline.consumerStep place).run s.pipeline = .ok [] pipeline')
    (hkeeps : ∀ failed, s.pipeline.consumer = .ended failed → pipeline'.consumer = .ended failed)
    (hrunning : Pipeline.Running config.ringCapacity config.engineLimits source events pipeline')
    (hreason : Pipeline.ReasonKnown source pipeline') :
    ∃ s', (step config moved (.consumer place readings')).run s = .ok [] s' ∧
      Invariant config source events readings s' ∧ s'.pipeline = pipeline' := by
  have hmeasured : Measured config (appliedEvents events) readings { s with pipeline := pipeline' } :=
    h.measured.of_eq rfl rfl rfl
  have hwritten := h.written
  unfold Written at hwritten
  have finish : ∀ {s'}, (finish config readings'.throughput).run { s with pipeline := pipeline' } =
      .ok () s' → (step config moved (.consumer place readings')).run s = .ok [] s' := by
    intro s' run'
    exact (run_bind_ok (zoom_ok run)).trans (run_bind_ok run')
  cases hstatus : s.status with
  | none =>
    simp only [hstatus] at hwritten
    obtain ⟨_, hout, herr⟩ := hwritten
    by_cases hended : ∃ failed, pipeline'.consumer = .ended failed
    · obtain ⟨failed, hended⟩ := hended
      obtain ⟨s', run', hpipeline, hmeasured', houtput⟩ := finish_ok readings'.throughput
        (s := { s with pipeline := pipeline' }) hrunning hreason hmeasured hout herr hstatus hended
      refine ⟨s', finish run', ⟨?_, ?_, hmeasured', ?_⟩, hpipeline⟩
      · rw [hpipeline]
        exact hrunning
      · rw [hpipeline]
        exact hreason
      · unfold Written
        have hsome : s'.status ≠ none := fun hn => by
          unfold output at houtput
          rw [hn] at houtput
          cases houtput
        obtain ⟨status, hs'⟩ := Option.ne_none_iff_exists'.mp hsome
        simp only [hs', hpipeline]
        exact ⟨⟨failed, hended⟩, readings'.throughput, houtput⟩
    · rw [not_exists] at hended
      refine ⟨_, finish (finish_running _ hended), ⟨hrunning, hreason, hmeasured, ?_⟩, rfl⟩
      unfold Written
      simp only [hstatus]
      exact ⟨hended, hout, herr⟩
  | some status =>
    simp only [hstatus] at hwritten
    obtain ⟨⟨failed, hended⟩, _⟩ := hwritten
    exact ⟨{ s with pipeline := pipeline' }, finish (finish_returned _ hstatus),
      ⟨hrunning, hreason, hmeasured,
        h.written.of_eq ((hkeeps failed hended).trans hended.symm) rfl rfl rfl⟩, rfl⟩

/-- A step of the consumer that applies an event. -/
theorem consumer_applied (moved : ItchEvent → ItchEvent) {place : Placement} (readings' : Readings)
    {pipeline' : Pipeline} {result : ApplyResult} (h : Invariant config source events readings s)
    (run : (Pipeline.consumerStep place).run s.pipeline =
      .ok [.applied place s.pipeline.queued result] pipeline')
    (hbefore : s.pipeline.consumer = .applying) (hafter : pipeline'.consumer = .loadDone)
    (hrunning : Pipeline.Running config.ringCapacity config.engineLimits source
      (events ++ [.applied place s.pipeline.queued result]) pipeline')
    (hreason : Pipeline.ReasonKnown source pipeline') :
    ∃ s', (step config moved (.consumer place readings')).run s = .ok [readings'] s' ∧
      Invariant config source (events ++ [.applied place s.pipeline.queued result])
        (readings ++ [readings']) s' ∧ s'.pipeline = pipeline' := by
  have hconcat : appliedEvents (events ++ [.applied place s.pipeline.queued result]) =
      appliedEvents events ++ [s.pipeline.queued] := appliedEvents_append _ _
  have hwritten := h.written
  unfold Written at hwritten
  obtain ⟨_, _, hbetween⟩ := hrunning.1
  obtain ⟨hresults, happlied⟩ := applied_of_replayed hbetween.replayed
  change _ = config.results (appliedEvents _) at hresults
  change Applied config (appliedEvents _) _ at happlied
  obtain ⟨_, _, hbetween₀⟩ := h.running.1
  have hresults₀ : appliedResults events = config.results (appliedEvents events) :=
    (applied_of_replayed hbetween₀.replayed).1
  rw [hconcat, results_concat, appliedResults_append, hresults₀] at hresults
  obtain rfl : result = ((config.engine (appliedEvents events)).apply s.pipeline.queued).1 :=
    List.singleton_inj.mp (List.append_cancel_left hresults)
  rw [hconcat] at happlied
  cases hstatus : s.status with
  | none =>
    simp only [hstatus] at hwritten
    obtain ⟨_, hout, herr⟩ := hwritten
    have hmeasured : Measured config (appliedEvents events) readings
        { s with pipeline := pipeline' } := h.measured.of_eq rfl rfl rfl
    obtain ⟨s', run', hpipeline, hout', hstatus', herr', hmeasured'⟩ :=
      account_ok hmeasured readings' happlied herr
    refine ⟨s', (run_bind_ok (zoom_ok run)).trans (run_bind_ok run'), ⟨?_, ?_, ?_, ?_⟩, hpipeline⟩
    · rw [hpipeline]
      exact hrunning
    · rw [hpipeline]
      exact hreason
    · rw [hconcat]
      exact hmeasured'
    · unfold Written
      simp only [hstatus', hstatus, hpipeline, hafter, hconcat]
      exact ⟨nofun, hout'.trans hout, herr'⟩
  | some status =>
    simp only [hstatus] at hwritten
    obtain ⟨⟨failed, hended⟩, _⟩ := hwritten
    rw [hbefore] at hended
    cases hended

theorem consumer_ok (h : Invariant config source events readings s) (place : Placement)
    (readings' : Readings) : Steps config source readings moved (.consumer place readings') s := by
  have hprogresses : Progresses (Pipeline.step moved) (Pipeline.Running config.ringCapacity
    config.engineLimits source) _ _ _ := Pipeline.step_progresses
  obtain ⟨emitted, pipeline', run, hrunning, hadvances⟩ :=
    hprogresses (.consumer place) h.running
  have hmoves := Pipeline.consumerStep_moves run
  have hreason := hmoves.reason h.reason
  rcases hmoves.emits with ⟨rfl, hkeeps⟩ | ⟨result, rfl, hbefore, hafter⟩
  · rw [List.append_nil] at hrunning
    obtain ⟨s', run', hinv, hpipeline⟩ :=
      consumer_silent moved readings' h run hkeeps hrunning hreason
    refine ⟨[], events, s', run', ?_, ?_⟩
    · rw [List.append_nil]
      exact hinv
    · rw [hpipeline]
      exact hadvances
  · obtain ⟨s', run', hinv, hpipeline⟩ :=
      consumer_applied moved readings' h run hbefore hafter hrunning hreason
    refine ⟨[readings'], _, s', run', hinv, ?_⟩
    rw [hpipeline]
    exact hadvances

/-- **One step of the program.** -/
theorem step_progresses : Progresses (step config moved)
    (fun readings s => ∃ events, Invariant config source events readings s)
    (fun s => s.pipeline.rank) (fun s => s.pipeline.helper)
    (fun action => action.onPipeline.thread) := by
  rintro before s action ⟨events, h⟩
  obtain ⟨readings', events', s', run, hinv, hadvances⟩ :
      Steps config source before moved action s := by
    cases action with
    | producer => exact producer_ok h
    | consumer place readings' => exact consumer_ok h place readings'
  exact ⟨readings', s', run, ⟨events', hinv⟩, hadvances⟩

/-- A program whose replay has ended has printed the whole output. -/
theorem Invariant.output (h : Invariant config source events readings s)
    (hended : ∃ failed, s.pipeline.consumer = .ended failed) :
    readings.length = (decodedEvents source).length ∧
      ∃ throughput, s.output = some (config.output readings source throughput) := by
  obtain ⟨failed, hended⟩ := hended
  have hshutdown := (h.running.1.ended hended).2
  have hwritten := h.written
  unfold Written at hwritten
  refine ⟨?_, ?_⟩
  · rw [h.measured.length, hshutdown.applied, hshutdown.pushed]
  · cases hstatus : s.status with
    | none =>
      simp only [hstatus] at hwritten
      exact absurd hended (hwritten.1 failed)
    | some status =>
      simp only [hstatus] at hwritten
      exact hwritten.2

end Main

end Lob
