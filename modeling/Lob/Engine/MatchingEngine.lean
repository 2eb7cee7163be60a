import Lob.Itch.Event
import Lob.Book.OrderBook

/-!
# The matching engine

One book for every stock locate, a count of the resting orders over all of them, and counters of the
replayed messages. `apply` replays an ITCH event; `submitLimit` and `submitMarket` match simulated
orders. A locate may be mapped to no book only when an allocation failed in `ensureBook`.
-/

namespace Lob

open Basis

inductive ApplyAction where
  | Ignored
  | Added
  | Executed
  | Cancelled
  | Deleted
  | Replaced
  | Rejected
  deriving DecidableEq

structure ApplyResult where
  action : ApplyAction
  stockLocate : StockLocate
  changedBook : Bool
  deriving DecidableEq

structure ReplayStats where
  messages : BitVec 64
  ignored : BitVec 64
  adds : BitVec 64
  executions : BitVec 64
  cancels : BitVec 64
  deletes : BitVec 64
  replaces : BitVec 64
  rejected : BitVec 64
  deriving DecidableEq

def ReplayStats.zero : ReplayStats := ⟨0, 0, 0, 0, 0, 0, 0, 0⟩

structure EngineLimits where
  maxInstruments : BitVec 64 := BitVec.allOnes 64
  maxRestingOrders : BitVec 64 := BitVec.allOnes 64
  deriving DecidableEq

structure Fill where
  restingOrder : OrderId
  price : Price
  quantity : Quantity
  deriving DecidableEq

structure MatchResult where
  filled : Quantity := 0
  resting : Quantity := 0
  unfilled : Quantity := 0
  fillCount : ℕ := 0
  fillsTruncated : Bool := false
  accepted : Bool := true
  deriving DecidableEq

structure MatchingEngine where
  books : Map StockLocate (Option OrderBook)
  limits : EngineLimits
  restingOrderCount : BitVec 64
  stats : ReplayStats

/-- Computations on an engine. -/
abbrev Engine (α : Type) := EStateM Fault MatchingEngine α

namespace MatchingEngine

/-- A fresh engine. -/
def new (limits : EngineLimits) : MatchingEngine := ⟨∅, limits, 0, .zero⟩

def findBook (e : MatchingEngine) (locate : StockLocate) : Option OrderBook :=
  (e.books.lookup locate).join

def instrumentCount (e : MatchingEngine) : ℕ := size e.books

/-- `clear` keeps the limits. -/
def clear : Engine Unit := modify fun e => new e.limits

/-- A read of the book at `locate`. -/
def readBook {α : Type} (locate : StockLocate) (f : OrderBook → Except Fault α) : Engine α :=
  observe fun e => deref (e.findBook locate) >>= f

/-- An operation on the book at `locate`. -/
def onBook {α : Type} (locate : StockLocate) (operation : Book α) : Engine α :=
  focus (fun e => deref (e.findBook locate))
    (fun e book => { e with books := e.books.insert locate (some book) }) operation

def canCreateOrder (e : MatchingEngine) (locate : StockLocate) : Bool :=
  if e.restingOrderCount ≥ e.limits.maxRestingOrders then false
  else (e.findBook locate).isSome || e.instrumentCount < e.limits.maxInstruments.toNat

/-- `try_emplace` maps a new locate to no book; the book and its `Impl` are allocated after it. -/
def ensureBook (al : Alloc) (locate : StockLocate) : Engine Unit := do
  match (← get).books.lookup locate with
  | some _ => return
  | none =>
    al.request .bookMapNode
    modify fun e => { e with books := e.books.insert locate none }
    al.request .bookObject
    al.request .bookImpl
    modify fun e => { e with books := e.books.insert locate (some .empty) }

def reject (locate : StockLocate) : Engine ApplyResult := do
  modify fun e => { e with stats.rejected := e.stats.rejected + 1 }
  return ⟨.Rejected, locate, false⟩

/-! ## `apply` -/

def ignore (locate : StockLocate) : Engine ApplyResult := do
  modify fun e => { e with stats.ignored := e.stats.ignored + 1 }
  return ⟨.Ignored, locate, false⟩

/-- `A` and `F`. -/
def applyAdd (al : Alloc) (locate : StockLocate) (reference : OrderId) (side : Side)
    (price : Price) (shares : Quantity) : Engine ApplyResult := do
  if !(← get).canCreateOrder locate then
    return ← reject locate
  ensureBook al locate
  if !(← onBook locate (OrderBook.add al reference side price shares)) then
    return ← reject locate
  modify fun e => { e with
    restingOrderCount := e.restingOrderCount + 1
    stats.adds := e.stats.adds + 1 }
  return ⟨.Added, locate, true⟩

/-- The order of a reference, where the locate has a book. -/
def findOrder (e : MatchingEngine) (locate : StockLocate) (reference : OrderId) :
    Except Fault (Option OrderView) :=
  match e.findBook locate with
  | none => return none
  | some book => book.order reference

/-- `E`, `C` and `X`: the order is read before the operation, to see whether it is removed. -/
def applyReduction (locate : StockLocate) (reference : OrderId) (shares : Quantity)
    (operation : Book Bool) (tally : ReplayStats → ReplayStats) (action : ApplyAction) :
    Engine ApplyResult := do
  match ← observe fun e => e.findOrder locate reference with
  | none => reject locate
  | some order =>
    if !(← onBook locate operation) then
      return ← reject locate
    if order.quantity = shares then
      modify fun e => { e with restingOrderCount := e.restingOrderCount - 1 }
    modify fun e => { e with stats := tally e.stats }
    return ⟨action, locate, true⟩

def applyExecuted (locate : StockLocate) (reference : OrderId) (shares : Quantity) :
    Engine ApplyResult :=
  applyReduction locate reference shares (OrderBook.execute reference shares)
    (fun stats => { stats with executions := stats.executions + 1 }) .Executed

def applyCancel (locate : StockLocate) (reference : OrderId) (shares : Quantity) :
    Engine ApplyResult :=
  applyReduction locate reference shares (OrderBook.cancel reference shares)
    (fun stats => { stats with cancels := stats.cancels + 1 }) .Cancelled

def applyDelete (locate : StockLocate) (reference : OrderId) : Engine ApplyResult := do
  match (← get).findBook locate with
  | none => reject locate
  | some _ =>
    if !(← onBook locate (OrderBook.erase reference)) then
      return ← reject locate
    modify fun e => { e with
      restingOrderCount := e.restingOrderCount - 1
      stats.deletes := e.stats.deletes + 1 }
    return ⟨.Deleted, locate, true⟩

def applyReplace (al : Alloc) (locate : StockLocate) (original new : OrderId) (price : Price)
    (shares : Quantity) : Engine ApplyResult := do
  match (← get).findBook locate with
  | none => reject locate
  | some _ =>
    if !(← onBook locate (OrderBook.replace al original new price shares)) then
      return ← reject locate
    modify fun e => { e with stats.replaces := e.stats.replaces + 1 }
    return ⟨.Replaced, locate, true⟩

def apply (al : Alloc) (event : ItchEvent) : Engine ApplyResult := do
  modify fun e => { e with stats.messages := e.stats.messages + 1 }
  match event with
  | .addOrder message =>
    applyAdd al message.header.stockLocate message.orderReference message.side message.price
      message.shares
  | .addAttributedOrder message =>
    applyAdd al message.header.stockLocate message.orderReference message.side message.price
      message.shares
  | .orderExecuted message =>
    applyExecuted message.header.stockLocate message.orderReference message.executedShares
  | .orderExecutedWithPrice message =>
    applyExecuted message.header.stockLocate message.orderReference message.executedShares
  | .orderCancel message =>
    applyCancel message.header.stockLocate message.orderReference message.canceledShares
  | .orderDelete message => applyDelete message.header.stockLocate message.orderReference
  | .orderReplace message =>
    applyReplace al message.header.stockLocate message.originalOrderReference
      message.newOrderReference message.price message.shares
  | .skippedMessage message =>
    ignore (match message.header with | some header => header.stockLocate | none => 0)
  | .systemEvent message => ignore message.header.stockLocate
  | .stockDirectory message => ignore message.header.stockLocate
  | .tradingAction message => ignore message.header.stockLocate
  | .trade message => ignore message.header.stockLocate
  | .crossTrade message => ignore message.header.stockLocate
  | .brokenTrade message => ignore message.header.stockLocate
  | .netOrderImbalance message => ignore message.header.stockLocate

/-! ## Matching -/

/-- Whether an order at `limitPrice` trades with a resting one at `price`. -/
def crosses (side : Side) (limitPrice price : Price) : Bool :=
  match side with
  | .Buy => limitPrice ≥ price
  | .Sell => limitPrice ≤ price

def oppositeBest (side : Side) (book : OrderBook) : Except Fault (Option Price) :=
  match side with
  | .Buy => book.bestAsk
  | .Sell => book.bestBid

/-- The result and the output after one more fill; a fill past the output's end is dropped. -/
def recordFill (fill : Fill) (result : MatchResult) (output : List Fill) :
    MatchResult × List Fill :=
  ({ result with
      fillsTruncated := result.fillsTruncated || output.length ≤ result.fillCount
      fillCount := result.fillCount + 1
      filled := result.filled + fill.quantity },
    output.set result.fillCount fill)

/-- The loop of `match`, for at most `fuel` fills. -/
def matchLoop (locate : StockLocate) (side : Side) (limitPrice : Price) (hasLimit : Bool)
    (fuel : ℕ) (remaining : Quantity) (result : MatchResult) (output : List Fill) :
    Engine (MatchResult × List Fill) :=
  if remaining = 0 then return ({ result with resting := remaining }, output)
  else
    match fuel with
    | 0 => throw .outOfFuel
    | fuel + 1 => do
      match ← readBook locate (oppositeBest side) with
      | none => return ({ result with resting := remaining }, output)
      | some oppositePrice =>
        if hasLimit && !crosses side limitPrice oppositePrice then
          return ({ result with resting := remaining }, output)
        match ← readBook locate fun book => book.frontOrder (opposite side) oppositePrice with
        | none => return ({ result with resting := remaining, accepted := false }, output)
        | some resting =>
          let fillQuantity := if remaining < resting.quantity then remaining else resting.quantity
          if !(← onBook locate (OrderBook.execute resting.orderId fillQuantity)) then
            return ({ result with resting := remaining, accepted := false }, output)
          let (result, output) :=
            recordFill ⟨resting.orderId, oppositePrice, fillQuantity⟩ result output
          if fillQuantity = resting.quantity then
            modify fun e => { e with restingOrderCount := e.restingOrderCount - 1 }
          matchLoop locate side limitPrice hasLimit fuel (remaining - fillQuantity) result output

/-- `match`: every fill takes at least one share, so that `quantity` bounds their number. -/
def matchOrder (locate : StockLocate) (side : Side) (limitPrice : Price) (quantity : Quantity)
    (hasLimit : Bool) (output : List Fill) : Engine (MatchResult × List Fill) := do
  match (← get).findBook locate with
  | none => return ({ resting := quantity }, output)
  | some _ => matchLoop locate side limitPrice hasLimit quantity.toNat quantity {} output

def submitLimit (al : Alloc) (locate : StockLocate) (orderId : OrderId) (side : Side)
    (limitPrice : Price) (quantity : Quantity) (output : List Fill) :
    Engine (MatchResult × List Fill) := do
  if quantity = 0 ∨ ((← get).findBook locate).any (fun book => book.contains orderId) then
    return ({ accepted := false }, output)
  let (result, output) ← matchOrder locate side limitPrice quantity true output
  if result.resting = 0 then
    return (result, output)
  let refused : MatchResult := { result with
    unfilled := result.unfilled + result.resting, resting := 0, accepted := false }
  if !(← get).canCreateOrder locate then
    return (refused, output)
  ensureBook al locate
  if !(← onBook locate (OrderBook.add al orderId side limitPrice result.resting)) then
    return (refused, output)
  modify fun e => { e with restingOrderCount := e.restingOrderCount + 1 }
  return (result, output)

def submitMarket (locate : StockLocate) (side : Side) (quantity : Quantity)
    (output : List Fill) : Engine (MatchResult × List Fill) := do
  if quantity = 0 then
    return ({ accepted := false }, output)
  let (result, output) ← matchOrder locate side 0 quantity false output
  return ({ result with unfilled := result.resting, resting := 0 }, output)

end MatchingEngine

end Lob
