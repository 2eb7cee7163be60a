import Lob.Basis.Runs
import Lob.Spsc.Ring

/-!
# Two threads on a ring

The producer calls `emplace` and `full`, the consumer `tryPop` and `empty`, in any order and with any
arguments. An action is one step of one thread; a thread that stands between operations takes its next
call from the action. What a call returns is an event.
-/

namespace Lob

open Basis

inductive ProducerCall (A T : Type) where
  | emplace (construction : Construction A T) (given : A)
  | full

inductive ConsumerCall (T : Type) where
  | tryPop (given : T)
  | empty

inductive Producer (A T : Type) where
  | idle
  | emplacing (call : Emplacing A T)
  | full (point : QueryPoint)

inductive Consumer (T : Type) where
  | idle
  | popping (call : Popping T)
  | empty (point : QueryPoint)

/-- The ring and what its two threads are doing. -/
structure Threads (A T : Type) where
  ring : SpscRing T
  producer : Producer A T
  consumer : Consumer T

inductive Thread where
  | producer
  | consumer
  deriving DecidableEq

inductive RingAction (A T : Type) where
  | producer (next : ProducerCall A T)
  | consumer (next : ConsumerCall T)

/-- A call has returned: what it was given, its result, and what it leaves of its argument. -/
inductive RingEvent (A T : Type) where
  | emplaced (construction : Construction A T) (given : A) (result : EmplaceResult) (left : A)
  | wasFull (result : Bool)
  | popped (given : T) (result : Bool) (out : T)
  | wasEmpty (result : Bool)

variable {A T : Type}

def RingAction.thread : RingAction A T → Thread
  | .producer _ => .producer
  | .consumer _ => .consumer

namespace RingEvent

def thread : RingEvent A T → Thread
  | .emplaced .. | .wasFull _ => .producer
  | .popped .. | .wasEmpty _ => .consumer

/-- A value went in or came out. -/
def succeeded : RingEvent A T → Bool
  | .emplaced _ _ result _ => result = .pushed
  | .popped _ result _ => result
  | _ => false

def pushed? : RingEvent A T → Option T
  | .emplaced construction given .pushed _ => (construction given).1
  | _ => none

def popped? : RingEvent A T → Option T
  | .popped _ true out => some out
  | _ => none

end RingEvent

/-- The values pushed. -/
def pushedValues (events : List (RingEvent A T)) : List T := events.filterMap RingEvent.pushed?

/-- The values popped. -/
def poppedValues (events : List (RingEvent A T)) : List T := events.filterMap RingEvent.popped?

namespace Threads

def onRing {α : Type} (operation : EStateM Fault (SpscRing T) α) : EStateM Fault (Threads A T) α :=
  zoom Threads.ring (fun s ring => { s with ring := ring }) operation

def producerStep (next : ProducerCall A T) : EStateM Fault (Threads A T) (List (RingEvent A T)) := do
  match (← get).producer with
  | .idle =>
    match next with
    | .emplace construction given =>
      modify fun s => { s with producer := .emplacing (.start construction given) }
    | .full => modify fun s => { s with producer := .full .loadOwn }
    return []
  | .emplacing call =>
    match ← onRing call.step with
    | .inl call =>
      modify fun s => { s with producer := .emplacing call }
      return []
    | .inr (result, left) =>
      modify fun s => { s with producer := .idle }
      return [.emplaced call.construction call.given result left]
  | .full point =>
    match ← onRing (SpscRing.fullStep point) with
    | .inl point =>
      modify fun s => { s with producer := .full point }
      return []
    | .inr result =>
      modify fun s => { s with producer := .idle }
      return [.wasFull result]

def consumerStep (next : ConsumerCall T) : EStateM Fault (Threads A T) (List (RingEvent A T)) := do
  match (← get).consumer with
  | .idle =>
    match next with
    | .tryPop given => modify fun s => { s with consumer := .popping (.start given) }
    | .empty => modify fun s => { s with consumer := .empty .loadOwn }
    return []
  | .popping call =>
    match ← onRing call.step with
    | .inl call =>
      modify fun s => { s with consumer := .popping call }
      return []
    | .inr (result, out) =>
      modify fun s => { s with consumer := .idle }
      return [.popped call.given result out]
  | .empty point =>
    match ← onRing (SpscRing.emptyStep point) with
    | .inl point =>
      modify fun s => { s with consumer := .empty point }
      return []
    | .inr result =>
      modify fun s => { s with consumer := .idle }
      return [.wasEmpty result]

def step : RingAction A T → EStateM Fault (Threads A T) (List (RingEvent A T))
  | .producer next => producerStep next
  | .consumer next => consumerStep next

/-- Both threads stand between operations. -/
def start (ring : SpscRing T) : Threads A T := ⟨ring, .idle, .idle⟩

end Threads

def Producer.call? : Producer A T → Option (Emplacing A T)
  | .emplacing call => some call
  | _ => none

def Consumer.call? : Consumer T → Option (Popping T)
  | .popping call => some call
  | _ => none

end Lob
