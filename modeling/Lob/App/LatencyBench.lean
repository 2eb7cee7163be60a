import Lob.App.Arguments
import Lob.App.Outcome
import Lob.Book.Effects

/-!
# The latency benchmark

`main` adds orders to a book, cancels them, rebuilds them in an engine and takes them one by one with
market orders; an operation that does not do as expected ends it with an error. None does: for every
number of orders that it accepts the program prints its measurements and succeeds.
-/

namespace Lob

open Basis

/-! ## Loops -/

section Loops

variable {σ : Type} {step : ℕ → EStateM Fault σ Bool} {P : ℕ → σ → Prop} {n : ℕ}

/-- A loop that stops where a step fails. -/
def allSucceed (step : ℕ → EStateM Fault σ Bool) : List ℕ → EStateM Fault σ Bool
  | [] => return true
  | index :: indices => do
    if !(← step index) then
      return false
    allSucceed step indices

/-- A loop that records the time of each step. -/
def timed (step : ℕ → EStateM Fault σ Bool) (elapsed : ℕ → BitVec 64) :
    List ℕ → HdrHistogram → EStateM Fault σ (Option HdrHistogram)
  | [], histogram => return some histogram
  | index :: indices, histogram => do
    if !(← step index) then
      return none
    timed step elapsed indices (histogram.record (elapsed index))

/-- Each step succeeds and carries `P` on. -/
def Succeeds (step : ℕ → EStateM Fault σ Bool) (P : ℕ → σ → Prop) (n : ℕ) : Prop :=
  ∀ index s, index < n → P index s → ∃ s', (step index).run s = .ok true s' ∧ P (index + 1) s'

theorem allSucceed_run (hstep : Succeeds step P n) (count : ℕ) :
    ∀ start s, start + count = n → P start s →
      ∃ s', (allSucceed step (List.range' start count)).run s = .ok true s' ∧ P n s' := by
  induction count with
  | zero =>
    rintro start s rfl h
    exact ⟨s, rfl, h⟩
  | succ count ih =>
    intro start s hn h
    obtain ⟨s₁, run₁, h₁⟩ := hstep start s (by omega) h
    obtain ⟨s₂, run₂, h₂⟩ := ih (start + 1) s₁ (by omega) h₁
    refine ⟨s₂, ?_, h₂⟩
    rw [List.range'_succ]
    unfold allSucceed
    rw [run_bind_ok run₁]
    exact run₂

theorem timed_run (elapsed : ℕ → BitVec 64) (hstep : Succeeds step P n) (count : ℕ) :
    ∀ start histogram s, start + count = n → P start s →
      ∃ s', (timed step elapsed (List.range' start count) histogram).run s =
        .ok (some (((List.range' start count).map elapsed).foldl HdrHistogram.record histogram)) s' ∧
          P n s' := by
  induction count with
  | zero =>
    rintro start histogram s rfl h
    exact ⟨s, rfl, h⟩
  | succ count ih =>
    intro start histogram s hn h
    obtain ⟨s₁, run₁, h₁⟩ := hstep start s (by omega) h
    obtain ⟨s₂, run₂, h₂⟩ := ih (start + 1) (histogram.record (elapsed start)) s₁ (by omega) h₁
    refine ⟨s₂, ?_, h₂⟩
    rw [List.range'_succ]
    unfold timed
    rw [run_bind_ok run₁]
    exact run₂

end Loops

/-! ## The program -/

namespace LatencyBench

/-- What the program runs in: where it is given memory, and how long each operation took. -/
structure Environment where
  bookPlace : ℕ → Placement
  enginePlace : ℕ → Placement
  addNs : ℕ → BitVec 64
  cancelNs : ℕ → BitVec 64
  matchNs : ℕ → BitVec 64

/-- Zero where there is no number to read, or none in the supported range. -/
def parseOrderCount (input : String) : BitVec 64 :=
  match stoull input with
  | .ok value => if value = 0 ∨ value > 4294967295 then 0 else value
  | .error _ => 0

/-- The number of orders asked for. -/
def orderCount : List String → BitVec 64
  | [_, input] => parseOrderCount input
  | _ => 200000

def print (name : String) (histogram : HdrHistogram) : String := summaryLine name histogram

def kBasePrice : Price := 1000000

def kLocate : StockLocate := 1

def orderId (index : ℕ) : OrderId := BitVec.ofNat 64 index + 1

def price (index : ℕ) : Price := kBasePrice + BitVec.ofNat 32 (index % 256)

def addOrder (place : ℕ → Placement) (index : ℕ) : Book Bool :=
  OrderBook.add (.reliable (place index)) (orderId index) .Buy (price index) 100

def cancelOrder (index : ℕ) : Book Bool := OrderBook.cancel (orderId index) 100

def rebuildOrder (place : ℕ → Placement) (index : ℕ) : Engine Bool := do
  let result ← MatchingEngine.apply (.reliable (place index)) (.addOrder
    ⟨⟨kLocate, 0, 0⟩, orderId index, .Sell, 100, Vector.replicate 8 0, price index⟩)
  return result.changedBook

/-- The engine, and the array that the fills are written to. -/
structure Matching where
  engine : MatchingEngine
  fillOutput : List Fill

def matchOrder (_index : ℕ) : EStateM Fault Matching Bool := do
  let output := (← get).fillOutput
  let (result, output) ← zoom Matching.engine (fun s engine => { s with engine := engine })
    (MatchingEngine.submitMarket kLocate .Buy 100 output)
  modify fun s => { s with fillOutput := output }
  return result.accepted && result.filled = 100 && result.unfilled = 0 && result.fillCount = 1 &&
    !result.fillsTruncated

/-- `main`. -/
def run (environment : Environment) (argv : List String) : Except Fault Output :=
  if 2 < argv.length then .ok ⟨[], ["usage: lob_latency_bench [orders]"], 1⟩
  else if orderCount argv = 0 then
    .ok ⟨[], ["orders must be an integer in [1, 4294967295]"], 1⟩
  else
    let indices := List.range' 0 (orderCount argv).toNat
    match (timed (addOrder environment.bookPlace) environment.addNs indices .reset).run .empty with
    | .error fault _ => .error fault
    | .ok none _ => .ok ⟨[], ["benchmark setup failed while adding order"], 1⟩
    | .ok (some addLatency) book =>
      match (timed cancelOrder environment.cancelNs indices .reset).run book with
      | .error fault _ => .error fault
      | .ok none _ => .ok ⟨[], ["benchmark setup failed while cancelling order"], 1⟩
      | .ok (some cancelLatency) _ =>
        match (allSucceed (rebuildOrder environment.enginePlace) indices).run (.new {}) with
        | .error fault _ => .error fault
        | .ok false _ => .ok ⟨[], ["benchmark setup failed while rebuilding matching book"], 1⟩
        | .ok true engine =>
          match (timed matchOrder environment.matchNs indices .reset).run ⟨engine, [⟨0, 0, 0⟩]⟩ with
          | .error fault _ => .error fault
          | .ok none _ => .ok ⟨[], ["benchmark match produced an unexpected fill"], 1⟩
          | .ok (some matchLatency) _ =>
            .ok ⟨["orders=" ++ toString (orderCount argv).toNat, print "add" addLatency,
              print "cancel" cancelLatency, print "match" matchLatency], [], 0⟩

/-! ## The book -/

variable {r : ReferenceBook} {n k lo hi : ℕ}

/-- The orders above `lo` and up to `hi` rest, with 100 shares each. -/
def Rows (r : ReferenceBook) (lo hi : ℕ) : Prop :=
  ∀ id : OrderId, (r.orders.lookup id).map ReferenceOrder.quantity =
    if lo < id.toNat ∧ id.toNat ≤ hi then some 100 else none

theorem orderId_toNat (h : k < 2 ^ 32) : (orderId k).toNat = k + 1 := by
  unfold orderId
  rw [BitVec.toNat_add, BitVec.toNat_ofNat]
  show (k % 2 ^ 64 + 1) % 2 ^ 64 = k + 1
  omega

theorem toNat_eq_iff (h : k < 2 ^ 32) {id : OrderId} : id = orderId k ↔ id.toNat = k + 1 := by
  rw [← orderId_toNat h]
  exact BitVec.toNat_eq

/-- The next order is new. -/
theorem Rows.add (h : Rows r 0 k) (hk : k < 2 ^ 32) (side : Side) (price : Price) :
    (r.add (orderId k) side price 100).1 = true ∧
      Rows (r.add (orderId k) side price 100).2 0 (k + 1) := by
  have hnone : r.orders.lookup (orderId k) = none := by
    have hrow := h (orderId k)
    rw [orderId_toNat hk, if_neg (by omega)] at hrow
    exact Option.map_eq_none_iff.mp hrow
  have hok : (r.add (orderId k) side price 100).1 = true := by
    unfold ReferenceBook.add ReferenceBook.contains
    rw [hnone, if_neg (by simp)]
  refine ⟨hok, fun id => ?_⟩
  rw [(ReferenceBook.add_accepted hok).2.2]
  show ((r.orders.insert (orderId k) _).lookup id).map _ = _
  rw [lookup_insert_ite]
  have hid : id = orderId k ↔ id.toNat = k + 1 := toNat_eq_iff hk
  by_cases heq : id = orderId k
  · have hnat := hid.mp heq
    rw [if_pos heq, if_pos (by omega)]
    rfl
  · have hnat := mt hid.mpr heq
    rw [if_neg heq, h id]
    by_cases hle : id.toNat ≤ k
    · simp [hle, Nat.le_succ_of_le hle]
    · rw [if_neg (by omega), if_neg (by omega)]

/-- The first order can be cancelled. -/
theorem Rows.cancel (h : Rows r k n) (hk : k < n) (hn : n < 2 ^ 32) :
    (r.cancel (orderId k) 100).1 = true ∧ Rows (r.cancel (orderId k) 100).2 (k + 1) n := by
  have hrow := h (orderId k)
  rw [orderId_toNat (by omega), if_pos (by omega)] at hrow
  obtain ⟨order, hlook, hquantity⟩ := Option.map_eq_some_iff.mp hrow
  have hcancel : r.cancel (orderId k) 100 =
      (true, (r.removeFromLevel (orderId k) order).eraseOrder (orderId k)) := by
    unfold ReferenceBook.cancel
    rw [hlook]
    simp only
    rw [hquantity, if_neg (by decide), if_pos rfl, ReferenceBook.erase_of_lookup hlook]
  rw [hcancel]
  refine ⟨rfl, fun id => ?_⟩
  show ((r.orders.erase (orderId k)).lookup id).map _ = _
  rw [lookup_erase_ite]
  have hid : id = orderId k ↔ id.toNat = k + 1 := toNat_eq_iff (by omega)
  by_cases heq : id = orderId k
  · have hnat := hid.mp heq
    rw [if_pos heq, if_neg (by omega)]
    rfl
  · have hnat := mt hid.mpr heq
    rw [if_neg heq, h id]
    by_cases hlt : k < id.toNat
    · have hlt' : k + 1 < id.toNat := by omega
      simp [hlt, hlt']
    · rw [if_neg (by omega), if_neg (by omega)]

theorem addOrder_succeeds (place : ℕ → Placement) (hn : n < 2 ^ 32) :
    Succeeds (addOrder place) (fun k b => ∃ r, b.Represents r ∧ Rows r 0 k) n := by
  rintro k b hk ⟨r, hrep, hrows⟩
  obtain ⟨hok, hrows'⟩ := hrows.add (by omega) .Buy (price k)
  obtain ⟨b', run, hrep', _⟩ :=
    OrderBook.add_returns (place k) (orderId k) .Buy (price k) 100 hrep
  rw [hok] at run
  exact ⟨b', run, _, hrep', hrows'⟩

theorem cancelOrder_succeeds (hn : n < 2 ^ 32) :
    Succeeds cancelOrder (fun k b => ∃ r, b.Represents r ∧ Rows r k n) n := by
  rintro k b hk ⟨r, hrep, hrows⟩
  obtain ⟨hok, hrows'⟩ := hrows.cancel hk hn
  obtain ⟨b', run, hrep', _⟩ := OrderBook.cancel_returns (orderId k) 100 hrep
  rw [hok] at run
  exact ⟨b', run, _, hrep', hrows'⟩

/-! ## The engine -/

/-- The asks that wait: `count` of them, with 100 shares each. -/
structure Asks (r : ReferenceBook) (count : ℕ) : Prop where
  wf : r.WF
  order : ∀ id order, r.orders.lookup id = some order → order.side = .Sell ∧ order.quantity = 100
  count : r.orderCount = count

theorem Asks.add (h : Asks r k) {id : OrderId} {price : Price}
    (hok : (r.add id .Sell price 100).1 = true) : Asks (r.add id .Sell price 100).2 (k + 1) where
  wf := h.wf.add hok
  order id' order hid := by
    rw [(ReferenceBook.add_accepted hok).2.2] at hid
    change (r.orders.insert id _).lookup id' = _ at hid
    rw [lookup_insert_ite] at hid
    split_ifs at hid
    · cases hid
      exact ⟨rfl, rfl⟩
    · exact h.order id' order hid
  count := by
    rw [ReferenceBook.add_orderCount hok, h.count]

/-- An order waits at the head of the queue. -/
theorem Asks.head (h : Asks r (k + 1)) : ∃ v rest, r.queue .Sell (fun _ => true) = v :: rest ∧
    v.quantity = 100 ∧ r.orders.lookup v.orderId = some ⟨v.side, v.price, v.quantity⟩ := by
  have hpos : 0 < r.orders.keys.card := by
    have hcount : r.orders.keys.card = k + 1 := h.count
    omega
  obtain ⟨id, hid⟩ := Finset.card_pos.mp hpos
  obtain ⟨order, hlook⟩ := Option.isSome_iff_exists.mp (mem_keys_iff.mp hid)
  have hmem : (⟨id, order.side, order.price, order.quantity⟩ : OrderView) ∈
      r.queue .Sell (fun _ => true) := by
    refine List.mem_flatMap.mpr ⟨order.price, List.mem_filter.mpr ⟨mem_priceOrder _ _, rfl⟩, ?_⟩
    rw [← (h.order id order hlook).1]
    exact h.wf.lookup_iff.mp hlook
  obtain ⟨v, rest, hqueue⟩ := List.exists_cons_of_ne_nil (List.ne_nil_of_mem hmem)
  obtain ⟨price, _, hv⟩ := List.mem_flatMap.mp (hqueue ▸ List.mem_cons_self : v ∈ r.queue _ _)
  have hown := (h.wf.mem_views hv).2.2.2.2
  exact ⟨v, rest, hqueue, (h.order _ _ hown).2, hown⟩

/-- A market order for 100 shares takes it. -/
theorem Asks.take (h : Asks r (k + 1)) : ∃ v,
    greedy OrderView.held (r.queue .Sell fun _ => true) 100 = [(v, 100)] ∧
      Asks (r.take [(v, 100)]) k := by
  obtain ⟨v, rest, hqueue, hquantity, hlook⟩ := h.head
  have hheld : v.held = 100 := by
    unfold OrderView.held
    rw [hquantity]
    rfl
  have hexecute : r.execute v.orderId 100 =
      (true, (r.removeFromLevel v.orderId ⟨v.side, v.price, v.quantity⟩).eraseOrder v.orderId) := by
    unfold ReferenceBook.execute ReferenceBook.cancel
    rw [hlook]
    simp only
    rw [hquantity, if_neg (by decide), if_pos rfl, ReferenceBook.erase_of_lookup hlook, hquantity]
  have htake : r.take [(v, 100)] = (r.execute v.orderId 100).2 := rfl
  refine ⟨v, ?_, ?_⟩
  · rw [hqueue, greedy_cons_of_le (by decide) (le_of_eq hheld), hheld, greedy_zero]
  · rw [htake, hexecute]
    refine ⟨h.wf.erase hlook, fun id order hid => ?_, ?_⟩
    · change (r.orders.erase v.orderId).lookup id = _ at hid
      rw [lookup_erase_ite] at hid
      split_ifs at hid
      exact h.order id order hid
    · have hcount : size r.orders = k + 1 := h.count
      have herase : size (r.orders.erase v.orderId) + 1 = size r.orders := size_erase hlook
      show size (r.orders.erase v.orderId) = k
      omega

/-- The engine while its orders are rebuilt. -/
structure Rebuilding (m : ReferenceEngine) (k : ℕ) : Prop where
  limits : m.limits = {}
  only : ∀ locate, locate ≠ kLocate → m.books.lookup locate = none
  rows : Rows (m.book kLocate) 0 k
  asks : Asks (m.book kLocate) k

theorem Rebuilding.restingOrders {m : ReferenceEngine} (h : Rebuilding m k) : m.restingOrders = k := by
  unfold ReferenceEngine.restingOrders
  rw [total_of_only h.only, ← h.asks.count]
  unfold ReferenceEngine.book
  cases m.books.lookup kLocate <;> rfl

/-- The caps of a fresh engine are out of reach. -/
theorem Rebuilding.canCreateOrder {m : ReferenceEngine} (h : Rebuilding m k) (hk : k < 2 ^ 32) :
    m.CanCreateOrder kLocate := by
  unfold ReferenceEngine.CanCreateOrder
  rw [h.restingOrders, h.limits]
  constructor
  · show k < 2 ^ 64 - 1
    omega
  · cases hbook : m.books.lookup kLocate with
    | some r => exact Or.inl rfl
    | none =>
      have hempty : size m.books = size (∅ : Map StockLocate ReferenceBook) := by
        refine size_congr fun locate => ?_
        by_cases heq : locate = kLocate
        · rw [heq, hbook]
          rfl
        · rw [h.only locate heq]
          rfl
      rw [hempty]
      exact Or.inr (by decide)

theorem rebuildOrder_succeeds (place : ℕ → Placement) (hn : n < 2 ^ 32) :
    Succeeds (rebuildOrder place) (fun k e => ∃ m, MatchingEngine.Represents e m ∧ Rebuilding m k) n := by
  rintro k e hk ⟨m, hrep, hm⟩
  set event : ItchEvent := .addOrder
    ⟨⟨kLocate, 0, 0⟩, orderId k, .Sell, 100, Vector.replicate 8 0, price k⟩ with hevent
  obtain ⟨hok, hrows⟩ := hm.rows.add (by omega) .Sell (price k)
  have happly : m.apply event = (⟨.Added, kLocate, true⟩,
      m.setBook kLocate ((m.book kLocate).add (orderId k) .Sell (price k) 100).2) := by
    show m.add kLocate (orderId k) .Sell (price k) 100 = _
    unfold ReferenceEngine.add
    rw [if_pos (hm.canCreateOrder (by omega)), if_pos hok]
  obtain ⟨e', run, hrep', _⟩ := MatchingEngine.apply_simulates hrep (place k) event
  rw [happly] at run hrep'
  refine ⟨e', ?_, _, hrep', hm.limits, fun locate hne => ?_, ?_, ?_⟩
  · unfold rebuildOrder
    rw [run_bind_ok run]
    rfl
  · rw [ReferenceEngine.setBook_lookup, if_neg hne]
    exact hm.only locate hne
  · rw [ReferenceEngine.setBook_book]
    exact hrows
  · rw [ReferenceEngine.setBook_book]
    exact hm.asks.add hok

/-- `k` orders are taken. -/
def Matched (n k : ℕ) (s : Matching) : Prop :=
  s.fillOutput.length = 1 ∧
    ∃ m, MatchingEngine.Represents s.engine m ∧ Asks (m.book kLocate) (n - k)

theorem matchOrder_succeeds : Succeeds matchOrder (Matched n) n := by
  rintro k ⟨e, output⟩ hk ⟨hlength, m, hrep, hasks⟩
  change output.length = 1 at hlength
  rw [show n - k = n - (k + 1) + 1 by omega] at hasks
  obtain ⟨v, hgreedy, hasks'⟩ := hasks.take
  have htaken : m.taken kLocate .Buy (ReferenceEngine.reach false .Buy 0) 100 = [(v, 100)] := hgreedy
  obtain ⟨e', run, hrep', _⟩ :=
    MatchingEngine.submitMarket_simulates hrep kLocate .Buy 100 output
  have hresult : m.submitMarket kLocate .Buy 100 output =
      ((⟨100, 0, 0, 1, false, true⟩, ReferenceEngine.writeFills [(v, 100)] output),
        m.swept kLocate .Buy (ReferenceEngine.reach false .Buy 0) 100) := by
    unfold ReferenceEngine.submitMarket
    rw [if_neg (by decide)]
    simp only [htaken]
    unfold ReferenceEngine.matchResult
    rw [hlength]
    rfl
  rw [hresult] at run hrep'
  refine ⟨⟨e', ReferenceEngine.writeFills [(v, 100)] output⟩, ?_, ?_, _, hrep', ?_⟩
  · unfold matchOrder
    rw [run_get_bind]
    rw [run_bind_ok (zoom_ok run)]
    rfl
  · show (ReferenceEngine.writeFills [(v, 100)] output).length = 1
    rw [MatchingEngine.length_writeFills, hlength]
  · rw [ReferenceEngine.swept_book, if_pos rfl, htaken]
    exact hasks'

/-! ## The outcome -/

theorem orderCount_lt (argv : List String) : (orderCount argv).toNat < 2 ^ 32 := by
  have hparse : ∀ input, (parseOrderCount input).toNat < 2 ^ 32 := by
    intro input
    unfold parseOrderCount
    split
    · split_ifs with hbad
      · decide
      · rw [not_or, BitVec.not_lt] at hbad
        exact Nat.lt_succ_of_le hbad.2
    · decide
  unfold orderCount
  split
  · exact hparse _
  · decide

/-- What the program prints and returns. -/
def output (environment : Environment) (argv : List String) : Output :=
  if 2 < argv.length then ⟨[], ["usage: lob_latency_bench [orders]"], 1⟩
  else if orderCount argv = 0 then ⟨[], ["orders must be an integer in [1, 4294967295]"], 1⟩
  else
    let indices := List.range' 0 (orderCount argv).toNat
    ⟨["orders=" ++ toString (orderCount argv).toNat,
      print "add" (.recordAll (indices.map environment.addNs)),
      print "cancel" (.recordAll (indices.map environment.cancelNs)),
      print "match" (.recordAll (indices.map environment.matchNs))], [], 0⟩

/-- **The benchmark succeeds** for every number of orders that it accepts: no order is refused, every
order can be cancelled, and every market order is filled by one ask. -/
theorem run_eq_output (environment : Environment) (argv : List String) :
    run environment argv = .ok (output environment argv) := by
  unfold run output
  by_cases husage : 2 < argv.length
  · rw [if_pos husage, if_pos husage]
  rw [if_neg husage, if_neg husage]
  by_cases hzero : orderCount argv = 0
  · rw [if_pos hzero, if_pos hzero]
  rw [if_neg hzero, if_neg hzero]
  have hn := orderCount_lt argv
  set n := (orderCount argv).toNat
  have hempty : Rows .empty 0 0 := by
    intro id
    rw [if_neg (by omega)]
    rfl
  obtain ⟨book, runAdd, r, hbook, hrows⟩ := timed_run environment.addNs
    (addOrder_succeeds environment.bookPlace hn) n 0 .reset .empty (Nat.zero_add n)
    ⟨.empty, OrderBook.empty_represents, hempty⟩
  obtain ⟨_, runCancel, _⟩ := timed_run environment.cancelNs
    (cancelOrder_succeeds hn) n 0 .reset book (Nat.zero_add n) ⟨r, hbook, hrows⟩
  have hnew : Rebuilding (.new {}) 0 :=
    ⟨rfl, fun _ _ => rfl, hempty, ReferenceBook.WF.empty, nofun, rfl⟩
  obtain ⟨engine, runRebuild, m, hengine, hm⟩ :=
    allSucceed_run (rebuildOrder_succeeds environment.enginePlace hn) n 0 (.new {}) (Nat.zero_add n)
      ⟨.new {}, MatchingEngine.new_represents {}, hnew⟩
  obtain ⟨_, runMatch, _⟩ := timed_run environment.matchNs matchOrder_succeeds n 0
    .reset ⟨engine, [⟨0, 0, 0⟩]⟩ (Nat.zero_add n) ⟨rfl, m, hengine, hm.asks⟩
  simp only [runAdd, runCancel, runRebuild, runMatch]
  rfl

end LatencyBench

end Lob
