import Lob.App.ItchReplay
import Lob.Metrics.Histogram

/-!
# The replay program

`main`, once its arguments are parsed and its file is open. The loop of the consumer also measures the
events and writes checkpoints, and when the producer is joined the replay is reported. What the clock
shows is part of an action, and may be anything.
-/

namespace Lob

open Basis

structure ReplayConfig where
  inputPath : String := ""
  ringCapacity : BitVec 64 := 65536
  engineLimits : EngineLimits := {}
  checkpointEvery : BitVec 64 := 0
  snapshotLocate : Option StockLocate := none
  failOnReject : Bool := false
  deriving DecidableEq

structure OperationLatency where
  add : HdrHistogram
  cancel : HdrHistogram
  execution : HdrHistogram
  replace : HdrHistogram

def OperationLatency.reset : OperationLatency := ⟨.reset, .reset, .reset, .reset⟩

def recordLatency (latency : OperationLatency) (action : ApplyAction) (durationNs : BitVec 64) :
    OperationLatency :=
  match action with
  | .Added => { latency with add := latency.add.record durationNs }
  | .Cancelled => { latency with cancel := latency.cancel.record durationNs }
  | .Executed => { latency with execution := latency.execution.record durationNs }
  | .Replaced => { latency with replace := latency.replace.record durationNs }
  | _ => latency

/-- What a thread computes from the clock: how long an event took to apply and since it was queued, and
after the last one the messages per second. -/
structure Readings where
  operationNs : BitVec 64
  endToEndNs : BitVec 64
  throughput : BitVec 64

/-! ## Lines -/

def checkpointLine (applied : BitVec 64) (instruments restingOrders : ℕ) (rejected : BitVec 64) :
    String :=
  "event=checkpoint applied=" ++ toString applied.toNat ++
    " instruments=" ++ toString instruments ++
    " resting_orders=" ++ toString restingOrders ++
    " rejected=" ++ toString rejected.toNat

def replayLine (decoded applied : BitVec 64) (instruments restingOrders : ℕ)
    (rejected throughput : BitVec 64) : String :=
  "decoded=" ++ toString decoded.toNat ++ " applied=" ++ toString applied.toNat ++
    " instruments=" ++ toString instruments ++
    " resting_orders=" ++ toString restingOrders ++ " rejected=" ++ toString rejected.toNat ++
    " throughput=" ++ toString throughput.toNat ++ " messages/s"

/-- `print_summary`. -/
def summaryLine (name : String) (histogram : HdrHistogram) : String :=
  name ++ ": count=" ++ toString histogram.summary.count.toNat ++
    " p50=" ++ toString histogram.summary.p50Ns.toNat ++
    "ns p99=" ++ toString histogram.summary.p99Ns.toNat ++
    "ns p99.9=" ++ toString histogram.summary.p999Ns.toNat ++
    "ns max=" ++ toString histogram.summary.maxNs.toNat ++ "ns"

def summaryLines (latency : OperationLatency) (endToEnd : HdrHistogram) : List String :=
  [summaryLine "add" latency.add,
    summaryLine "cancel" latency.cancel,
    summaryLine "execution/match" latency.execution,
    summaryLine "replace" latency.replace,
    summaryLine "enqueue-to-apply" endToEnd]

def decodeErrorLine (reason : String) : String := "decode error: " ++ reason

def snapshotMissingLine (locate : StockLocate) : String :=
  "event=snapshot_missing stock_locate=" ++ toString locate.toNat

def snapshotLine (locate : StockLocate) (bid ask : Option Depth) : String :=
  "snapshot.stock_locate=" ++ toString locate.toNat ++
    " bid_price=" ++ toString (bid.elim 0 fun depth => depth.price.toNat) ++
    " bid_quantity=" ++ toString (bid.elim 0 fun depth => depth.quantity.toNat) ++
    " ask_price=" ++ toString (ask.elim 0 fun depth => depth.price.toNat) ++
    " ask_quantity=" ++ toString (ask.elim 0 fun depth => depth.quantity.toNat)

/-! ## The program -/

/-- The variables of `main`, the lines on its two streams, and what it has returned. -/
structure Main where
  pipeline : Pipeline
  latency : OperationLatency
  endToEnd : HdrHistogram
  appliedMessages : BitVec 64
  out : List String
  err : List String
  status : Option ℕ

inductive MainAction where
  | producer
  | consumer (place : Placement) (readings : Readings)

def MainAction.onPipeline : MainAction → ReplayAction
  | .producer => .producer
  | .consumer place _ => .consumer place

namespace Main

def start (config : ReplayConfig) (queue : SpscRing ItchEvent) (reads : List FrameRead)
    (queued : ItchEvent) : Main where
  pipeline := .start queue config.engineLimits reads queued
  latency := .reset
  endToEnd := .reset
  appliedMessages := 0
  out := []
  err := []
  status := none

def onPipeline {α : Type} (operation : EStateM Fault Pipeline α) : EStateM Fault Main α :=
  zoom Main.pipeline (fun s pipeline => { s with pipeline := pipeline }) operation

variable (config : ReplayConfig) (moved : ItchEvent → ItchEvent)

/-- The loop of the consumer behind `apply`. -/
def account (result : ApplyResult) (readings : Readings) : EStateM Fault Main Unit := do
  modify fun s => { s with
    latency := recordLatency s.latency result.action readings.operationNs
    endToEnd := s.endToEnd.record readings.endToEndNs
    appliedMessages := s.appliedMessages + 1 }
  let s ← get
  if config.checkpointEvery ≠ 0 ∧ s.appliedMessages % config.checkpointEvery = 0 then
    let engine := s.pipeline.engine
    modify fun s => { s with
      err := s.err ++ [checkpointLine s.appliedMessages engine.instrumentCount
        engine.restingOrderCount.toNat engine.stats.rejected] }

/-- The lines of the snapshot on the two streams. -/
def snapshot (engine : MatchingEngine) : Except Fault (List String × List String) :=
  match config.snapshotLocate with
  | none => return ([], [])
  | some locate =>
    match engine.findBook locate with
    | none => return ([], [snapshotMissingLine locate])
    | some book => do
      let bid ← book.bestBidDepth
      let ask ← book.bestAskDepth
      return ([snapshotLine locate bid ask], [])

def report (throughput : BitVec 64) : EStateM Fault Main Unit := do
  let s ← get
  let engine := s.pipeline.engine
  let (snapshotOut, snapshotErr) ← observe fun _ => snapshot config engine
  set { s with
    out := s.out ++ replayLine s.pipeline.decodedMessages engine.stats.messages
      engine.instrumentCount engine.restingOrderCount.toNat engine.stats.rejected throughput ::
        summaryLines s.latency s.endToEnd ++ snapshotOut
    err := s.err ++ snapshotErr
    status := some (if config.failOnReject && engine.stats.rejected != 0 then 1 else 0) }

/-- What follows the join of the producer. -/
def finish (throughput : BitVec 64) : EStateM Fault Main Unit := do
  match (← get).pipeline.consumer, (← get).status with
  | .ended true, none =>
    modify fun s => { s with
      err := s.err ++ [decodeErrorLine s.pipeline.decodeError]
      status := some 1 }
  | .ended false, none => report config throughput
  | _, _ => return

/-- The readings are emitted that an event was measured with. -/
def step : MainAction → EStateM Fault Main (List Readings)
  | .producer => do
    let _ ← onPipeline (Pipeline.producerStep moved)
    return []
  | .consumer place readings => do
    match ← onPipeline (Pipeline.consumerStep place) with
    | [.applied _ _ result] =>
      account config result readings
      return [readings]
    | _ =>
      finish config readings.throughput
      return []

end Main

end Lob
