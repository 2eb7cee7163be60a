import Lob.Basis.Runs
import Lob.Engine.MatchingEngine
import Lob.Itch.Decoder
import Lob.Spsc.Ring

/-!
# The replay of a file

`main` decodes frames in a producer thread, which pushes the events on a ring, and applies them in the
thread that started it. Each step is one access that the other thread may come between: a load or a
store of a flag or of an index, or an access to a slot. What a thread does to its own variables is part
of the step before or a step of its own. The time stamp of a queued event is left out: only the latency
histograms read it.
-/

namespace Lob

open Basis

/-- What `next_frame` returns before the end of the file. -/
inductive FrameRead where
  | frame (bytes : List Byte)
  | error (reason : String)
  deriving DecidableEq

/-- The event of a frame, or the `decode_error`. -/
def decodeFrame (bytes : List Byte) : Except Fault (Except String ItchEvent) := do
  let decoded ← Itch.decodeNext bytes
  match decoded.status, decoded.message with
  | .Complete, some message => return .ok message.event
  | _, _ =>
    return .error (decoded.error.elim "truncated ITCH frame at end of file" DecodeError.reason)

inductive ReplayProducer where
  | reading
  | pushing (call : Emplacing ItchEvent ItchEvent)
  | storeFailed
  | storeDone
  | finished

/-- After `exited` the thread joins the producer; it has `ended` with what `producer_failed` was. -/
inductive ReplayConsumer where
  | loadDone
  | empty (point : QueryPoint)
  | popping (call : Popping ItchEvent)
  | applying
  | exited
  | ended (failed : Bool)

/-- The variables of `main`. `reads` is what `next_frame` has yet to return. -/
structure Pipeline where
  queue : SpscRing ItchEvent
  producerDone : Bool
  producerFailed : Bool
  decodeError : String
  decodedMessages : BitVec 64
  reads : List FrameRead
  producer : ReplayProducer
  engine : MatchingEngine
  queued : ItchEvent
  consumer : ReplayConsumer

inductive ReplayAction where
  | producer
  | consumer (place : Placement)

inductive ReplayEvent where
  | pushed (event : ItchEvent)
  | applied (place : Placement) (event : ItchEvent) (result : ApplyResult)

namespace Pipeline

/-- `queued` starts as a default `QueuedEvent`. -/
def start (queue : SpscRing ItchEvent) (limits : EngineLimits) (reads : List FrameRead)
    (queued : ItchEvent) : Pipeline where
  queue := queue
  producerDone := false
  producerFailed := false
  decodeError := ""
  decodedMessages := 0
  reads := reads
  producer := .reading
  engine := .new limits
  queued := queued
  consumer := .loadDone

def onQueue {α : Type} (operation : EStateM Fault (SpscRing ItchEvent) α) :
    EStateM Fault Pipeline α :=
  zoom Pipeline.queue (fun s queue => { s with queue := queue }) operation

def onEngine {α : Type} (operation : Engine α) : EStateM Fault Pipeline α :=
  zoom Pipeline.engine (fun s engine => { s with engine := engine }) operation

variable (moved : ItchEvent → ItchEvent)

/-- The thread that decodes. A push that the ring refuses is tried again with what is left of the
event. -/
def producerStep : EStateM Fault Pipeline (List ReplayEvent) := do
  match (← get).producer with
  | .reading =>
    match (← get).reads with
    | [] =>
      modify fun s => { s with producer := .storeDone }
      return []
    | .error reason :: reads =>
      modify fun s => { s with reads := reads, decodeError := reason, producer := .storeFailed }
      return []
    | .frame bytes :: reads =>
      match ← observe fun _ => decodeFrame bytes with
      | .ok event =>
        modify fun s => { s with reads := reads, producer := .pushing (.start (moveOf moved) event) }
        return []
      | .error reason =>
        modify fun s => { s with reads := reads, decodeError := reason, producer := .storeFailed }
        return []
  | .pushing call =>
    match ← onQueue call.step with
    | .inl call =>
      modify fun s => { s with producer := .pushing call }
      return []
    | .inr (.pushed, _) =>
      modify fun s => { s with
        decodedMessages := s.decodedMessages + 1
        producer := .reading }
      return [.pushed call.given]
    | .inr (.full, left) =>
      modify fun s => { s with producer := .pushing (.start (moveOf moved) left) }
      return []
    | .inr (.threw, _) => throw .badAlloc
  | .storeFailed =>
    modify fun s => { s with producerFailed := true, producer := .storeDone }
    return []
  | .storeDone =>
    modify fun s => { s with producerDone := true, producer := .finished }
    return []
  | .finished => return []

/-- The thread that applies. The loop ends when the producer was done and the ring is then empty. -/
def consumerStep (place : Placement) : EStateM Fault Pipeline (List ReplayEvent) := do
  match (← get).consumer with
  | .loadDone =>
    if (← get).producerDone then
      modify fun s => { s with consumer := .empty .loadOwn }
    else
      modify fun s => { s with consumer := .popping (.start s.queued) }
    return []
  | .empty point =>
    match ← onQueue (SpscRing.emptyStep point) with
    | .inl point =>
      modify fun s => { s with consumer := .empty point }
      return []
    | .inr true =>
      modify fun s => { s with consumer := .exited }
      return []
    | .inr false =>
      modify fun s => { s with consumer := .popping (.start s.queued) }
      return []
  | .popping call =>
    match ← onQueue call.step with
    | .inl call =>
      modify fun s => { s with consumer := .popping call }
      return []
    | .inr (true, out) =>
      modify fun s => { s with queued := out, consumer := .applying }
      return []
    | .inr (false, out) =>
      modify fun s => { s with queued := out, consumer := .loadDone }
      return []
  | .applying =>
    let event := (← get).queued
    let result ← onEngine (MatchingEngine.apply (.reliable place) event)
    modify fun s => { s with consumer := .loadDone }
    return [.applied place event result]
  | .exited =>
    match (← get).producer with
    | .finished => modify fun s => { s with consumer := .ended s.producerFailed }
    | _ => pure ()
    return []
  | .ended _ => return []

def step : ReplayAction → EStateM Fault Pipeline (List ReplayEvent)
  | .producer => producerStep moved
  | .consumer place => consumerStep place

end Pipeline

end Lob
