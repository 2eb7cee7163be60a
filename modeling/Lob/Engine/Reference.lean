import Lob.Engine.MatchingEngine
import Lob.Book.Queue

/-!
# The reference engine

What the engine is for: a reference book for every locate in use, and the limits. The number of
resting orders is the sum over the books, with no counter of its own, and matching is the greedy
sweep of the opposite queue.
-/

namespace Lob

open Basis

/-- The counter of an outcome is advanced. -/
def ReplayStats.tally (stats : ReplayStats) (action : ApplyAction) : ReplayStats :=
  match action with
  | .Ignored => { stats with ignored := stats.ignored + 1 }
  | .Added => { stats with adds := stats.adds + 1 }
  | .Executed => { stats with executions := stats.executions + 1 }
  | .Cancelled => { stats with cancels := stats.cancels + 1 }
  | .Deleted => { stats with deletes := stats.deletes + 1 }
  | .Replaced => { stats with replaces := stats.replaces + 1 }
  | .Rejected => { stats with rejected := stats.rejected + 1 }

/-- The counters after an event with this outcome. -/
def ReplayStats.record (stats : ReplayStats) (action : ApplyAction) : ReplayStats :=
  ReplayStats.tally { stats with messages := stats.messages + 1 } action

structure ReferenceEngine where
  books : Map StockLocate ReferenceBook
  limits : EngineLimits

namespace ReferenceEngine

def new (limits : EngineLimits) : ReferenceEngine := ⟨∅, limits⟩

variable (m : ReferenceEngine)

def restingOrders : ℕ := total ReferenceBook.orderCount m.books

/-- The book of a locate, empty where it has none. -/
def book (locate : StockLocate) : ReferenceBook := (m.books.lookup locate).getD .empty

def setBook (locate : StockLocate) (r : ReferenceBook) : ReferenceEngine :=
  { m with books := m.books.insert locate r }

def CanCreateOrder (locate : StockLocate) : Prop :=
  m.restingOrders < m.limits.maxRestingOrders.toNat ∧
    ((m.books.lookup locate).isSome ∨ size m.books < m.limits.maxInstruments.toNat)

instance (locate : StockLocate) : Decidable (m.CanCreateOrder locate) :=
  inferInstanceAs (Decidable (_ ∧ _))

/-! ## `apply` -/

def rejected (locate : StockLocate) : ApplyResult := ⟨.Rejected, locate, false⟩

/-- `A` and `F`. The book exists from then on, also where it refuses the order. -/
def add (locate : StockLocate) (reference : OrderId) (side : Side) (price : Price)
    (shares : Quantity) : ApplyResult × ReferenceEngine :=
  if m.CanCreateOrder locate then
    (if ((m.book locate).add reference side price shares).1 then ⟨.Added, locate, true⟩
      else rejected locate,
      m.setBook locate ((m.book locate).add reference side price shares).2)
  else (rejected locate, m)

/-- The other book events act on a book that exists. -/
def update (locate : StockLocate) (action : ApplyAction)
    (operation : ReferenceBook → Bool × ReferenceBook) : ApplyResult × ReferenceEngine :=
  match m.books.lookup locate with
  | none => (rejected locate, m)
  | some r =>
    if (operation r).1 then (⟨action, locate, true⟩, m.setBook locate (operation r).2)
    else (rejected locate, m)

def ignored (locate : StockLocate) : ApplyResult := ⟨.Ignored, locate, false⟩

def apply (event : ItchEvent) : ApplyResult × ReferenceEngine :=
  match event with
  | .addOrder message =>
    m.add message.header.stockLocate message.orderReference message.side message.price
      message.shares
  | .addAttributedOrder message =>
    m.add message.header.stockLocate message.orderReference message.side message.price
      message.shares
  | .orderExecuted message =>
    m.update message.header.stockLocate .Executed
      fun r => r.execute message.orderReference message.executedShares
  | .orderExecutedWithPrice message =>
    m.update message.header.stockLocate .Executed
      fun r => r.execute message.orderReference message.executedShares
  | .orderCancel message =>
    m.update message.header.stockLocate .Cancelled
      fun r => r.cancel message.orderReference message.canceledShares
  | .orderDelete message =>
    m.update message.header.stockLocate .Deleted fun r => r.erase message.orderReference
  | .orderReplace message =>
    m.update message.header.stockLocate .Replaced fun r =>
      r.replace message.originalOrderReference message.newOrderReference message.price
        message.shares
  | .skippedMessage message =>
    (ignored (match message.header with | some header => header.stockLocate | none => 0), m)
  | .systemEvent message => (ignored message.header.stockLocate, m)
  | .stockDirectory message => (ignored message.header.stockLocate, m)
  | .tradingAction message => (ignored message.header.stockLocate, m)
  | .trade message => (ignored message.header.stockLocate, m)
  | .crossTrade message => (ignored message.header.stockLocate, m)
  | .brokenTrade message => (ignored message.header.stockLocate, m)
  | .netOrderImbalance message => (ignored message.header.stockLocate, m)

/-! ## Matching -/

/-- The prices an incoming order can trade at. -/
def reach (hasLimit : Bool) (side : Side) (limitPrice price : Price) : Bool :=
  !hasLimit || MatchingEngine.crosses side limitPrice price

def toFill (taken : OrderView × ℕ) : Fill :=
  ⟨taken.1.orderId, taken.1.price, BitVec.ofNat 32 taken.2⟩

/-- What a sweep takes from the book of `locate`. -/
def taken (locate : StockLocate) (side : Side) (reaches : Price → Bool) (quantity : Quantity) :
    List (OrderView × ℕ) :=
  greedy OrderView.held ((m.book locate).queue (opposite side) reaches) quantity.toNat

/-- The engine after the sweep. -/
def swept (locate : StockLocate) (side : Side) (reaches : Price → Bool) (quantity : Quantity) :
    ReferenceEngine :=
  match m.books.lookup locate with
  | none => m
  | some r => m.setBook locate (r.take (m.taken locate side reaches quantity))

/-- The result of a sweep for `quantity` that reports to `capacity` slots. -/
def matchResult (quantity : Quantity) (capacity : ℕ) (taken : List (OrderView × ℕ)) :
    MatchResult where
  filled := BitVec.ofNat 32 (taken.map Prod.snd).sum
  resting := BitVec.ofNat 32 (quantity.toNat - (taken.map Prod.snd).sum)
  unfilled := 0
  fillCount := taken.length
  fillsTruncated := capacity < taken.length
  accepted := true

/-- The output slots after the fills are written. -/
def writeFills (taken : List (OrderView × ℕ)) (output : List Fill) : List Fill :=
  (taken.map toFill).take output.length ++ output.drop taken.length

def submitLimit (locate : StockLocate) (orderId : OrderId) (side : Side) (limitPrice : Price)
    (quantity : Quantity) (output : List Fill) : (MatchResult × List Fill) × ReferenceEngine :=
  if quantity = 0 ∨ (m.book locate).contains orderId = true then
    (({ accepted := false }, output), m)
  else
    let reaches := reach true side limitPrice
    let taken := m.taken locate side reaches quantity
    let m' := m.swept locate side reaches quantity
    let result := matchResult quantity output.length taken
    if result.resting = 0 then ((result, writeFills taken output), m')
    else if m'.CanCreateOrder locate then
      ((result, writeFills taken output), m'.setBook locate
        ((m'.book locate).add orderId side limitPrice result.resting).2)
    else
      (({ result with unfilled := result.resting, resting := 0, accepted := false },
        writeFills taken output), m')

def submitMarket (locate : StockLocate) (side : Side) (quantity : Quantity) (output : List Fill) :
    (MatchResult × List Fill) × ReferenceEngine :=
  if quantity = 0 then (({ accepted := false }, output), m)
  else
    let reaches := reach false side 0
    let taken := m.taken locate side reaches quantity
    let result := matchResult quantity output.length taken
    (({ result with unfilled := result.resting, resting := 0 }, writeFills taken output),
      m.swept locate side reaches quantity)

/-! ## Books and counts -/

variable {m} {locate locate' : StockLocate} {r r' : ReferenceBook}

theorem book_of_lookup (h : m.books.lookup locate = some r) : m.book locate = r := by
  unfold book; rw [h]; rfl

theorem book_of_lookup_none (h : m.books.lookup locate = none) : m.book locate = .empty := by
  unfold book; rw [h]; rfl

theorem taken_of_lookup_none (h : m.books.lookup locate = none) (side : Side)
    (reaches : Price → Bool) (quantity : Quantity) :
    m.taken locate side reaches quantity = [] := by
  unfold taken
  rw [book_of_lookup_none h, ReferenceBook.queue_nil fun _ _ => rfl]
  rfl

theorem setBook_lookup : (m.setBook locate r).books.lookup locate' =
    if locate' = locate then some r else m.books.lookup locate' :=
  lookup_insert_ite _ _ _ _

@[simp] theorem setBook_book : (m.setBook locate r).book locate = r :=
  book_of_lookup (by rw [setBook_lookup, if_pos rfl])

@[simp] theorem setBook_setBook : (m.setBook locate r).setBook locate r' = m.setBook locate r' := by
  unfold setBook
  rw [Finmap.insert_insert]

theorem setBook_same (h : m.books.lookup locate = some r) : m.setBook locate r = m := by
  unfold setBook
  rw [insert_self h]

theorem restingOrders_setBook (h : m.books.lookup locate = some r) (r' : ReferenceBook) :
    (m.setBook locate r').restingOrders + r.orderCount = m.restingOrders + r'.orderCount :=
  total_insert_old r' h

theorem restingOrders_setBook_new (h : m.books.lookup locate = none) (r' : ReferenceBook) :
    (m.setBook locate r').restingOrders = m.restingOrders + r'.orderCount :=
  total_insert_new r' h

/-- A locate without a book counts as an empty one. -/
theorem restingOrders_setBook_book (locate : StockLocate) (r' : ReferenceBook) :
    (m.setBook locate r').restingOrders + (m.book locate).orderCount =
      m.restingOrders + r'.orderCount := by
  cases hm : m.books.lookup locate with
  | none =>
    rw [restingOrders_setBook_new hm]
    unfold book
    rw [hm]
    rfl
  | some r =>
    rw [book_of_lookup hm]
    exact restingOrders_setBook hm r'

theorem orderCount_le (h : m.books.lookup locate = some r) : r.orderCount ≤ m.restingOrders :=
  le_total h

end ReferenceEngine

end Lob
