import Lob.Book.Effects
import Lob.Engine.Locality
import Lob.Engine.Replay

/-!
# The lifecycle of displayed orders

What every event does to a reachable engine, read off the engine itself: when it is accepted, and what
it makes of the orders of its locate. The counters count the outcomes.
-/

namespace Lob

open Basis ReferenceEngine

/-! ## Counters -/

/-- The counter of an outcome. -/
def ReplayStats.counter (stats : ReplayStats) : ApplyAction → BitVec 64
  | .Ignored => stats.ignored
  | .Added => stats.adds
  | .Executed => stats.executions
  | .Cancelled => stats.cancels
  | .Deleted => stats.deletes
  | .Replaced => stats.replaces
  | .Rejected => stats.rejected

theorem ReplayStats.record_counter (stats : ReplayStats) (action action' : ApplyAction) :
    (stats.record action).counter action' =
      stats.counter action' + if action = action' then 1 else 0 := by
  cases action <;> cases action' <;> simp [record, tally, counter]

/-- The outcome of a call, where it is an event. -/
def CallResult.action : CallResult → Option ApplyAction
  | .applied result => some result.action
  | _ => none

/-- The counters after a call that returned this. -/
def CallResult.record (stats : ReplayStats) : CallResult → ReplayStats
  | .applied result => stats.record result.action
  | .matched _ _ => stats
  | .cleared => .zero

/-- How many of these calls had this outcome. -/
def outcomes (results : List CallResult) (action : ApplyAction) : ℕ :=
  results.countP fun result => result.action = some action

/-- The counters count the outcomes, and the messages are all of them. -/
structure Counted (results : List CallResult) (stats : ReplayStats) : Prop where
  messages : stats.messages = BitVec.ofNat 64 (results.countP fun result => result.action.isSome)
  counter : ∀ action, stats.counter action = BitVec.ofNat 64 (outcomes results action)
  sum : stats.messages = stats.ignored + stats.adds + stats.executions + stats.cancels +
    stats.deletes + stats.replaces + stats.rejected

theorem counted_nil : Counted [] .zero :=
  ⟨rfl, fun action => by cases action <;> rfl, rfl⟩

theorem record_sum {stats : ReplayStats} (h : stats.messages = stats.ignored + stats.adds +
    stats.executions + stats.cancels + stats.deletes + stats.replaces + stats.rejected)
    (action : ApplyAction) :
    (stats.record action).messages = (stats.record action).ignored + (stats.record action).adds +
      (stats.record action).executions + (stats.record action).cancels +
      (stats.record action).deletes + (stats.record action).replaces +
      (stats.record action).rejected := by
  rw [ReplayStats.record_messages, h]
  cases action <;> simp only [ReplayStats.record, ReplayStats.tally] <;> ac_rfl

/-- One more outcome, of an event or of a submitted order. -/
theorem Counted.concat {results : List CallResult} {stats : ReplayStats} (h : Counted results stats)
    {result : CallResult} (hresult : result ≠ .cleared) :
    Counted (results ++ [result]) (result.record stats) := by
  cases result with
  | applied result =>
    refine ⟨?_, fun action => ?_, record_sum h.sum _⟩
    · show (stats.record result.action).messages = _
      rw [ReplayStats.record_messages, h.messages, List.countP_append, BitVec.ofNat_add]
      rfl
    · show (stats.record result.action).counter action = _
      unfold outcomes
      rw [ReplayStats.record_counter, h.counter, List.countP_append, BitVec.ofNat_add]
      unfold outcomes
      congr 1
      by_cases e : result.action = action <;> simp [e, CallResult.action]
  | matched result output =>
    refine ⟨?_, fun action => ?_, h.sum⟩
    · rw [List.countP_append]
      exact h.messages
    · unfold outcomes
      rw [List.countP_append]
      exact h.counter action
  | cleared => exact absurd rfl hresult

theorem ReferenceEngine.length_runCalls (m : ReferenceEngine) (calls : List EngineCall) :
    (m.runCalls calls).1.length = calls.length := by
  induction calls generalizing m with
  | nil => rfl
  | cons call calls ih => exact congrArg (· + 1) (ih _)

namespace MatchingEngine

variable {limits : EngineLimits} {e e' : MatchingEngine} {m m' : ReferenceEngine}

/-- A call advances the counter of its outcome. -/
theorem call_records (h : Represents e m) (place : Placement) (call : EngineCall) :
    ∃ e', (call.onEngine (.reliable place)).run e = .ok (call.onReference m).1 e' ∧
      Represents e' (call.onReference m).2 ∧ e'.stats = (call.onReference m).1.record e.stats := by
  cases call with
  | apply event =>
    obtain ⟨e', run, hrep, hstats, _⟩ := apply_simulates h place event
    exact ⟨e', run_bind_ok run, hrep, hstats⟩
  | submitLimit locate orderId side limitPrice quantity output =>
    obtain ⟨e', run, hrep, hstats⟩ :=
      submitLimit_simulates h place locate orderId side limitPrice quantity output
    exact ⟨e', run_bind_ok run, hrep, hstats⟩
  | submitMarket locate side quantity output =>
    obtain ⟨e', run, hrep, hstats⟩ := submitMarket_simulates h locate side quantity output
    exact ⟨e', run_bind_ok run, hrep, hstats⟩
  | clear =>
    refine ⟨new e.limits, rfl, ?_, rfl⟩
    rw [h.limits]
    exact new_represents _

theorem onReference_ne_cleared {call : EngineCall} (h : call ≠ .clear) (m : ReferenceEngine) :
    (call.onReference m).1 ≠ .cleared := by
  cases call with
  | clear => exact absurd rfl h
  | _ => exact nofun

/-- The counters after a run. -/
theorem runCalls_counted (calls : List (Placement × EngineCall))
    (hcalls : ∀ call ∈ calls, call.2 ≠ .clear) {before : List CallResult} (h : Represents e m)
    (hb : Counted before e.stats) : ∃ e',
      (runCalls calls).run e = .ok (m.runCalls (calls.map Prod.snd)).1 e' ∧
        Represents e' (m.runCalls (calls.map Prod.snd)).2 ∧
        Counted (before ++ (m.runCalls (calls.map Prod.snd)).1) e'.stats := by
  refine runCalls_keeps (P := fun before e m => Represents e m ∧ Counted before e.stats)
    (p := (· ≠ .clear)) (fun {_ _ m} place call hcall h => ?_) calls hcalls before ⟨h, hb⟩
  obtain ⟨e', run, hrep, hstats⟩ := call_records h.1 place call
  refine ⟨e', run, hrep, ?_⟩
  rw [hstats]
  exact h.2.concat (onReference_ne_cleared hcall m)

/-! ## One event -/

/-- The orders of a locate are the same. -/
structure SameOrders (e e' : MatchingEngine) (locate : StockLocate) : Prop where
  order : ∀ id, e'.order locate id = e.order locate id
  views : ∀ side price, e'.views locate side price = e.views locate side price

/-- An event that is accepted exactly in this case; the orders of its locate stay where it is not. -/
structure Decides (e e' : MatchingEngine) (locate : StockLocate) (result : ApplyResult)
    (action : ApplyAction) (accepts effect : Prop) : Prop where
  accepted : accepts → result = ⟨action, locate, true⟩ ∧ effect
  rejected : ¬accepts → result = ⟨.Rejected, locate, false⟩ ∧ SameOrders e e' locate

/-- `A` and `F`: the order rests at the tail of its level. -/
def Adds (e e' : MatchingEngine) (result : ApplyResult) (locate : StockLocate)
    (reference : OrderId) (side : Side) (price : Price) (shares : Quantity) : Prop :=
  Decides e e' locate result .Added
    (e.restingOrderCount < e.limits.maxRestingOrders ∧
      ((e.findBook locate).isSome ∨ e.instrumentCount < e.limits.maxInstruments.toNat) ∧
      shares ≠ 0 ∧ e.order locate reference = none)
    (∀ side' price', e'.views locate side' price' = e.views locate side' price' ++
      if side' = side ∧ price' = price then [⟨reference, side, price, shares⟩] else [])

/-- `E`, `C` and `X`: the order is reduced in its place, and removed at zero. -/
def Reduces (e e' : MatchingEngine) (result : ApplyResult) (action : ApplyAction)
    (locate : StockLocate) (reference : OrderId) (shares : Quantity) : Prop :=
  Decides e e' locate result action
    (∃ v, e.order locate reference = some v ∧ shares ≠ 0 ∧ shares ≤ v.quantity)
    (∀ side price, e'.views locate side price =
      (e.views locate side price).filterMap (OrderView.reduce reference shares))

/-- `D`: the order is removed. -/
def Deletes (e e' : MatchingEngine) (result : ApplyResult) (locate : StockLocate)
    (reference : OrderId) : Prop :=
  Decides e e' locate result .Deleted (e.order locate reference).isSome
    (∀ side price, e'.views locate side price =
      (e.views locate side price).filter fun v => v.orderId ≠ reference)

/-- `U`: the order moves to the new reference. -/
def Replaces (e e' : MatchingEngine) (result : ApplyResult) (locate : StockLocate)
    (original new : OrderId) (price : Price) (shares : Quantity) : Prop :=
  Decides e e' locate result .Replaced
    ((e.order locate original).isSome ∧ shares ≠ 0 ∧
      (new = original ∨ e.order locate new = none))
    (∃ v, e.order locate original = some v ∧ ∀ id, e'.order locate id =
      if id = new then some ⟨new, v.side, price, shares⟩
      else if id = original then none else e.order locate id)

/-- The lifecycle table. -/
def Lifecycle (e e' : MatchingEngine) (result : ApplyResult) : ItchEvent → Prop
  | .addOrder message =>
    Adds e e' result message.header.stockLocate message.orderReference message.side message.price
      message.shares
  | .addAttributedOrder message =>
    Adds e e' result message.header.stockLocate message.orderReference message.side message.price
      message.shares
  | .orderExecuted message =>
    Reduces e e' result .Executed message.header.stockLocate message.orderReference
      message.executedShares
  | .orderExecutedWithPrice message =>
    Reduces e e' result .Executed message.header.stockLocate message.orderReference
      message.executedShares
  | .orderCancel message =>
    Reduces e e' result .Cancelled message.header.stockLocate message.orderReference
      message.canceledShares
  | .orderDelete message =>
    Deletes e e' result message.header.stockLocate message.orderReference
  | .orderReplace message =>
    Replaces e e' result message.header.stockLocate message.originalOrderReference
      message.newOrderReference message.price message.shares
  | event => result = ⟨.Ignored, event.locate, false⟩ ∧ SameOrders e e' event.locate

section Events

variable {locate : StockLocate}

theorem Holds.sameOrders (h : Holds e m) (h' : Holds e' m')
    (hbook : m'.book locate = m.book locate) : SameOrders e e' locate where
  order id := by rw [h'.order_eq, h.order_eq, hbook]
  views side price := by rw [h'.views_eq, h.views_eq, hbook]

/-- A decision of the reference engine is one of the engine. -/
theorem Represents.decides {action : ApplyAction} {accepts effect : Prop} {result : ApplyResult}
    {b : Bool} (h : Represents e m) (h' : Represents e' m')
    (hresult : result = if b then ⟨action, locate, true⟩ else rejected locate)
    (haccepts : b = true ↔ accepts) (heffect : b = true → effect)
    (hrefused : b = false → m'.book locate = m.book locate) :
    Decides e e' locate result action accepts effect where
  accepted ha := by
    have hok := haccepts.mpr ha
    rw [hresult, hok]
    exact ⟨rfl, heffect hok⟩
  rejected ha := by
    have hok : b = false := Bool.eq_false_iff.mpr fun hok => ha (haccepts.mp hok)
    rw [hresult, hok]
    exact ⟨rfl, h.toHolds.sameOrders h'.toHolds (hrefused hok)⟩

theorem Represents.canCreate_iff (h : Represents e m) : m.CanCreateOrder locate ↔
    e.restingOrderCount < e.limits.maxRestingOrders ∧
      ((e.findBook locate).isSome ∨ e.instrumentCount < e.limits.maxInstruments.toNat) := by
  unfold CanCreateOrder
  rw [h.isSome_findBook, h.instrumentCount, h.limits, ← h.count]
  exact Iff.rfl

theorem add_decides (h : Represents e m) (reference : OrderId) (side : Side) (price : Price)
    (shares : Quantity) (h' : Represents e' (m.add locate reference side price shares).2) :
    Adds e e' (m.add locate reference side price shares).1 locate reference side price shares := by
  unfold Adds
  by_cases hcan : m.CanCreateOrder locate
  · obtain ⟨hresult, hbook⟩ := add_eq reference side price shares hcan
    refine h.decides h' hresult ?_ (fun hok side' price' => ?_) fun hok => ?_
    · rw [ReferenceBook.add_accepts_iff, ← h.order_eq, ← and_assoc, ← h.canCreate_iff]
      exact ⟨fun hadd => ⟨hcan, hadd⟩, fun hadd => hadd.2⟩
    · rw [h'.views_eq, h.views_eq, hbook]
      exact (h.wf locate).add_views hok side' price'
    · rw [hbook, ReferenceBook.add_refused hok]
  · have hadd : m.add locate reference side price shares = (rejected locate, m) := if_neg hcan
    rw [hadd] at h' ⊢
    rw [h.canCreate_iff] at hcan
    refine h.decides (b := false) h' rfl ?_ nofun fun _ => rfl
    exact iff_of_false nofun fun hadd => hcan ⟨hadd.1, hadd.2.1⟩

theorem update_decides {action : ApplyAction} {operation : ReferenceBook → Bool × ReferenceBook}
    {accepts effect : Prop} (h : Represents e m)
    (h' : Represents e' (m.update locate action operation).2)
    (hempty : operation .empty = (false, .empty))
    (hrefused : ∀ r, (operation r).1 = false → (operation r).2 = r)
    (haccepts : (operation (m.book locate)).1 = true ↔ accepts)
    (heffect : (operation (m.book locate)).1 = true →
      (m.update locate action operation).2.book locate = (operation (m.book locate)).2 → effect) :
    Decides e e' locate (m.update locate action operation).1 action accepts effect := by
  obtain ⟨hresult, hbook⟩ := update_eq m locate action hempty hrefused
  refine h.decides h' hresult haccepts (fun hok => heffect hok hbook) fun hok => ?_
  rw [hbook, hrefused _ hok]

theorem reduce_decides (h : Represents e m) (action : ApplyAction) (reference : OrderId)
    (shares : Quantity)
    (h' : Represents e' (m.update locate action fun r => r.cancel reference shares).2) :
    Reduces e e' (m.update locate action fun r => r.cancel reference shares).1 action locate
      reference shares := by
  refine update_decides h h' rfl (fun r => ReferenceBook.cancel_refused) ?_ fun hok hbook => ?_
  · rw [h.order_eq]
    exact ReferenceBook.cancel_accepts_iff
  · intro side price
    rw [h'.views_eq, h.views_eq, hbook]
    exact (h.wf locate).cancel_views hok side price

theorem delete_decides (h : Represents e m) (reference : OrderId)
    (h' : Represents e' (m.update locate .Deleted fun r => r.erase reference).2) :
    Deletes e e' (m.update locate .Deleted fun r => r.erase reference).1 locate reference := by
  refine update_decides h h' rfl (fun r => ReferenceBook.erase_refused) ?_ fun hok hbook => ?_
  · rw [h.order_eq]
    exact ReferenceBook.erase_accepts_iff
  · intro side price
    rw [h'.views_eq, h.views_eq, hbook]
    exact (h.wf locate).erase_views hok side price

theorem replace_decides (h : Represents e m) (original new : OrderId) (price : Price)
    (shares : Quantity)
    (h' : Represents e' (m.update locate .Replaced fun r => r.replace original new price shares).2) :
    Replaces e e' (m.update locate .Replaced fun r => r.replace original new price shares).1 locate
      original new price shares := by
  refine update_decides h h' rfl (fun r => ReferenceBook.replace_refused) ?_ fun hok hbook => ?_
  · rw [h.order_eq, h.order_eq]
    exact ReferenceBook.replace_accepts_iff
  · obtain ⟨v, hv, horder⟩ := ReferenceBook.replace_order hok
    refine ⟨v, by rw [h.order_eq, hv], fun id => ?_⟩
    rw [h'.order_eq, h.order_eq, hbook]
    exact horder id

/-- **One event.** -/
theorem apply_lifecycle (h : Represents e m) (event : ItchEvent)
    (h' : Represents e' (m.apply event).2) :
    Lifecycle e e' (m.apply event).1 event ∧ ∀ locate, locate ≠ event.locate →
      (e'.findBook locate).isSome = (e.findBook locate).isSome ∧ SameOrders e e' locate := by
  refine ⟨?_, fun locate hne => ⟨?_, h.toHolds.sameOrders h'.toHolds ?_⟩⟩
  · cases event with
    | addOrder message => exact add_decides h _ _ _ _ h'
    | addAttributedOrder message => exact add_decides h _ _ _ _ h'
    | orderExecuted message => exact reduce_decides h _ _ _ h'
    | orderExecutedWithPrice message => exact reduce_decides h _ _ _ h'
    | orderCancel message => exact reduce_decides h _ _ _ h'
    | orderDelete message => exact delete_decides h _ h'
    | orderReplace message => exact replace_decides h _ _ _ _ h'
    | skippedMessage message =>
      obtain ⟨type, header⟩ := message
      cases header <;> exact ⟨rfl, h.toHolds.sameOrders h'.toHolds rfl⟩
    | _ => exact ⟨rfl, h.toHolds.sameOrders h'.toHolds rfl⟩
  · rw [h'.isSome_findBook, h.isSome_findBook, (apply_elsewhere event).lookup _ hne]
  · exact (apply_elsewhere event).book hne

end Events

/-- **The lifecycle table.** In every reachable engine an event returns, with the outcome and the effect
of the table, and leaves the other locates alone; over every run of events from a fresh engine the
counters count the outcomes. -/
theorem apply_implements_lifecycle (limits : EngineLimits) :
    (∀ calls, ∃ results e, (runCalls calls).run (new limits) = .ok results e ∧
      ∀ place event, ∃ result e', (apply (.reliable place) event).run e = .ok result e' ∧
        Lifecycle e e' result event ∧ ∀ locate, locate ≠ event.locate →
          (e'.findBook locate).isSome = (e.findBook locate).isSome ∧ SameOrders e e' locate) ∧
    ∀ events : List (Placement × ItchEvent), ∃ results e,
      (runCalls (events.map fun (place, event) => (place, .apply event))).run (new limits) =
        .ok results e ∧ results.length = events.length ∧ Counted results e.stats := by
  refine ⟨fun calls => ?_, fun events => ?_⟩
  · obtain ⟨e, run, h, _⟩ := runCalls_new limits calls
    refine ⟨_, e, run, fun place event => ?_⟩
    obtain ⟨e', run', h', _⟩ := apply_simulates h place event
    exact ⟨_, e', run', apply_lifecycle h event h'⟩
  · obtain ⟨e, run, _, hcounted⟩ :=
      runCalls_counted (events.map fun (place, event) => (place, .apply event)) (by
        intro call hcall
        obtain ⟨⟨place, event⟩, _, rfl⟩ := List.mem_map.mp hcall
        exact nofun) (new_represents limits) counted_nil
    refine ⟨_, e, run, ?_, hcounted⟩
    rw [ReferenceEngine.length_runCalls, List.length_map, List.length_map]

end MatchingEngine

/-! ## Replays -/

namespace ReferenceEngine

variable {m : ReferenceEngine}

/-- What the events get, in order. -/
def results (m : ReferenceEngine) : List ItchEvent → List ApplyResult
  | [] => []
  | event :: events => (m.apply event).1 :: (m.apply event).2.results events

theorem replay_concat (events : List ItchEvent) (event : ItchEvent) :
    m.replay (events ++ [event]) = ((m.replay events).apply event).2 := by
  unfold replay
  rw [List.foldl_append]
  rfl

theorem results_concat (events : List ItchEvent) (event : ItchEvent) :
    m.results (events ++ [event]) = m.results events ++ [((m.replay events).apply event).1] := by
  induction events generalizing m with
  | nil => rfl
  | cons first events ih => exact congrArg ((m.apply first).1 :: ·) ih

theorem length_results (events : List ItchEvent) : (m.results events).length = events.length := by
  induction events generalizing m with
  | nil => rfl
  | cons event events ih => exact congrArg (· + 1) ih

/-- How many of the events are refused. -/
def rejections (m : ReferenceEngine) (events : List ItchEvent) : ℕ :=
  (m.results events).countP fun result => result.action = .Rejected

end ReferenceEngine

namespace MatchingEngine

variable {limits : EngineLimits} {calls : List (Placement × ItchEvent)} {results : List ApplyResult}
  {e : MatchingEngine}

/-- What is replayed gets what the reference engine gives, and the refusals are counted. -/
def Tallied (limits : EngineLimits) (events : List ItchEvent) (results : List ApplyResult)
    (e : MatchingEngine) : Prop :=
  results = (ReferenceEngine.new limits).results events ∧
    e.stats.rejected = BitVec.ofNat 64 ((ReferenceEngine.new limits).rejections events)

theorem Tallied.concat {events : List ItchEvent} (h : Tallied limits events results e)
    {event : ItchEvent} {e' : MatchingEngine} {result : ApplyResult}
    (hresult : result = (((ReferenceEngine.new limits).replay events).apply event).1)
    (hstats : e'.stats = e.stats.record result.action) :
    Tallied limits (events ++ [event]) (results ++ [result]) e' := by
  obtain ⟨hresults, hrejected⟩ := h
  have hconcat := ReferenceEngine.results_concat (m := .new limits) events event
  rw [← hresult] at hconcat
  refine ⟨?_, ?_⟩
  · rw [hconcat, hresults]
  · have hcounter := e.stats.record_counter result.action .Rejected
    rw [← hstats] at hcounter
    change e'.stats.rejected = e.stats.rejected + _ at hcounter
    unfold ReferenceEngine.rejections at hrejected ⊢
    rw [hcounter, hrejected, hconcat, List.countP_append, BitVec.ofNat_add]
    congr 1
    by_cases e : result.action = .Rejected <;> simp [e]

theorem exists_tallied (limits : EngineLimits) (calls : List (Placement × ItchEvent)) :
    ∃ results e, Replayed limits calls results e ∧ Tallied limits (calls.map Prod.snd) results e := by
  induction calls using List.reverseRecOn with
  | nil => exact ⟨[], new limits, new_replayed limits, rfl, rfl⟩
  | append_singleton calls call ih =>
    obtain ⟨results, e, h, htallied⟩ := ih
    obtain ⟨result, e', run, hreplayed⟩ := h.apply call.1 call.2
    obtain ⟨e'', run', _, hstats, _⟩ := apply_simulates h.represents call.1 call.2
    rw [run] at run'
    cases run'
    refine ⟨_, _, hreplayed, ?_⟩
    rw [List.map_append]
    exact htallied.concat rfl hstats

/-- **A replay** returns what the reference engine returns. -/
theorem Replayed.tallied (h : Replayed limits calls results e) :
    Tallied limits (calls.map Prod.snd) results e := by
  obtain ⟨results', e', h', htallied⟩ := exists_tallied limits calls
  have run := h.run
  rw [h'.run] at run
  cases run
  exact htallied

end MatchingEngine

end Lob
