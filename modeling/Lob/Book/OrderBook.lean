import Lob.Book.PriceIndex
import Lob.Book.Reference

/-!
# The order book

`OrderBook` is the book behind `impl_`: the order map, a level map and a price index for each side,
and the two heaps their owning pointers lead to. Nodes and levels are cells addressed by pointers;
freeing a cell removes it from its heap, so that following a dangling pointer is a `badAccess`.
-/

namespace Lob

open Basis

abbrev NodePtr := ℕ
abbrev LevelPtr := ℕ

structure OrderNode where
  id : OrderId
  side : Side
  price : Price
  quantity : Quantity
  level : Option LevelPtr
  previous : Option NodePtr
  next : Option NodePtr

structure PriceLevel where
  price : Price
  quantity : BitVec 64
  orderCount : ℕ
  head : Option NodePtr
  tail : Option NodePtr

def OrderNode.view (o : OrderNode) : OrderView := ⟨o.id, o.side, o.price, o.quantity⟩

structure OrderBook where
  nodes : Map NodePtr OrderNode
  cells : Map LevelPtr PriceLevel
  levels : Side → Map Price LevelPtr
  indices : Side → PriceIndex
  orders : Map OrderId NodePtr

/-- Computations on one book. -/
abbrev Book (α : Type) := EStateM Fault OrderBook α

namespace OrderBook

def empty : OrderBook where
  nodes := ∅
  cells := ∅
  levels := fun _ => ∅
  indices := fun _ => PriceIndex.reset
  orders := ∅

/-! ## Cells -/

def readNode (p : NodePtr) : Book OrderNode := observe fun b => deref (b.nodes.lookup p)

def readLevel (p : LevelPtr) : Book PriceLevel := observe fun b => deref (b.cells.lookup p)

def modifyNode (p : NodePtr) (f : OrderNode → OrderNode) : Book Unit := do
  let o ← readNode p
  modify fun b => { b with nodes := b.nodes.insert p (f o) }

def modifyLevel (p : LevelPtr) (f : PriceLevel → PriceLevel) : Book Unit := do
  let l ← readLevel p
  modify fun b => { b with cells := b.cells.insert p (f l) }

/-- `levels[side].erase(price)`: the entry goes and the level it owns is freed. -/
def eraseLevel (side : Side) (price : Price) : Book Unit :=
  modify fun b =>
    match (b.levels side).lookup price with
    | some p => { b with
        levels := Function.update b.levels side ((b.levels side).erase price)
        cells := b.cells.erase p }
    | none => b

/-- `orders.erase(id)`: the entry goes and the node it owns is freed. -/
def eraseOrder (id : OrderId) : Book Unit :=
  modify fun b =>
    match b.orders.lookup id with
    | some p => { b with orders := b.orders.erase id, nodes := b.nodes.erase p }
    | none => b

def indexAdd (al : Alloc) (side : Side) (price : Price) : Book Unit :=
  zoom (fun b => b.indices side)
    (fun b ix => { b with indices := Function.update b.indices side ix })
    (PriceIndex.add al price)

def indexRemove (side : Side) (price : Price) : Book Unit := do
  let ix ← observe fun b => (b.indices side).remove price
  modify fun b => { b with indices := Function.update b.indices side ix }

/-! ## `OrderBook::Impl` -/

def getOrCreateLevel (al : Alloc) (side : Side) (price : Price) : Book LevelPtr := do
  match ((← get).levels side).lookup price with
  | some found => return found
  | none =>
    al.request .priceLevel
    al.request .levelMapNode
    let level := al.place.pick (← get).cells.keys
    modify fun b => { b with
      cells := b.cells.insert level ⟨price, 0, 0, none, none⟩
      levels := Function.update b.levels side ((b.levels side).insert price level) }
    return level

/-- `if (p != nullptr) p->next = target; else level.head = target`. -/
def linkForward (level : LevelPtr) (p target : Option NodePtr) : Book Unit :=
  match p with
  | some p => modifyNode p fun o => { o with next := target }
  | none => modifyLevel level fun l => { l with head := target }

/-- `if (p != nullptr) p->previous = target; else level.tail = target`. -/
def linkBackward (level : LevelPtr) (p target : Option NodePtr) : Book Unit :=
  match p with
  | some p => modifyNode p fun o => { o with previous := target }
  | none => modifyLevel level fun l => { l with tail := target }

def append (level : LevelPtr) (order : NodePtr) : Book Unit := do
  let l ← readLevel level
  modifyNode order fun o => { o with level := some level, previous := l.tail, next := none }
  linkForward level l.tail (some order)
  let o ← readNode order
  modifyLevel level fun l => { l with
    tail := some order
    quantity := l.quantity + o.quantity.setWidth 64
    orderCount := l.orderCount + 1 }

def detach (level : LevelPtr) (order : NodePtr) : Book Unit := do
  let o ← readNode order
  linkForward level o.previous o.next
  let o ← readNode order
  linkBackward level o.next o.previous
  modifyNode order fun o => { o with previous := none, next := none, level := none }
  modifyLevel level fun l => { l with orderCount := l.orderCount - 1 }

/-- `erase_node`, for the map entry of `id` that owns `order`. -/
def eraseNode (id : OrderId) (order : NodePtr) : Book Unit := do
  let o ← readNode order
  let level ← observe fun _ => deref o.level
  modifyLevel level fun l => { l with quantity := l.quantity - o.quantity.setWidth 64 }
  detach level order
  if (← readLevel level).orderCount = 0 then
    indexRemove o.side o.price
    eraseLevel o.side o.price
  eraseOrder id

/-! ## Operations -/

def contains (b : OrderBook) (id : OrderId) : Bool := (b.orders.lookup id).isSome

/-- Rests a new order at the tail of its price level. The new level may stay behind, empty, when a
later allocation fails. -/
def add (al : Alloc) (id : OrderId) (side : Side) (price : Price) (quantity : Quantity) :
    Book Bool := do
  if quantity = 0 ∨ (← get).contains id = true then
    return false
  let level ← getOrCreateLevel al side price
  al.request .orderNode
  -- a node whose map entry cannot be allocated is freed again
  al.request .orderMapNode
  if (← get).contains id then
    return false
  let order := al.place.pick (← get).nodes.keys
  modify fun b => { b with
    nodes := b.nodes.insert order ⟨id, side, price, quantity, none, none, none⟩
    orders := b.orders.insert id order }
  let wasEmpty := (← readLevel level).orderCount == 0
  try
    if wasEmpty then
      indexAdd al side price
  catch fault =>
    eraseOrder id
    throw fault
  append level order
  return true

def cancel (id : OrderId) (quantity : Quantity) : Book Bool := do
  match (← get).orders.lookup id with
  | none => return false
  | some order =>
    let o ← readNode order
    if quantity = 0 ∨ quantity > o.quantity then
      return false
    if quantity = o.quantity then
      eraseNode id order
      return true
    modifyNode order fun o => { o with quantity := o.quantity - quantity }
    let level ← observe fun _ => deref o.level
    modifyLevel level fun l => { l with quantity := l.quantity - quantity.setWidth 64 }
    return true

def erase (id : OrderId) : Book Bool := do
  match (← get).orders.lookup id with
  | none => return false
  | some order =>
    eraseNode id order
    return true

def execute (id : OrderId) (quantity : Quantity) : Book Bool := cancel id quantity

/-- A same-price size reduction happens in place; anything else moves the order to the tail of its
new level. -/
def modify (al : Alloc) (id : OrderId) (newPrice : Price) (newQuantity : Quantity) :
    Book Bool := do
  match (← get).orders.lookup id with
  | none => return false
  | some order =>
    if newQuantity = 0 then
      return false
    let o ← readNode order
    let oldLevel ← observe fun _ => deref o.level
    if newPrice = o.price ∧ newQuantity ≤ o.quantity then
      modifyLevel oldLevel fun l =>
        { l with quantity := l.quantity - (o.quantity - newQuantity).setWidth 64 }
      modifyNode order fun o => { o with quantity := newQuantity }
      return true
    let newLevel ← getOrCreateLevel al o.side newPrice
    let activatingNewPrice := newLevel != oldLevel && (← readLevel newLevel).orderCount == 0
    if activatingNewPrice then
      indexAdd al o.side newPrice
    modifyLevel oldLevel fun l => { l with quantity := l.quantity - o.quantity.setWidth 64 }
    detach oldLevel order
    if (← readLevel oldLevel).orderCount = 0 ∧ oldLevel ≠ newLevel then
      indexRemove o.side o.price
      eraseLevel o.side o.price
    modifyNode order fun o => { o with price := newPrice, quantity := newQuantity }
    append newLevel order
    return true

/-- Inserts first, so that an allocation failure preserves the old order. -/
def replace (al : Alloc) (oldId newId : OrderId) (newPrice : Price) (newQuantity : Quantity) :
    Book Bool := do
  match (← get).orders.lookup oldId with
  | none => return false
  | some oldOrder =>
    if newQuantity = 0 then
      return false
    if oldId = newId then
      return ← modify al oldId newPrice newQuantity
    if (← get).contains newId then
      return false
    let side := (← readNode oldOrder).side
    if !(← add al newId side newPrice newQuantity) then
      return false
    erase oldId

def clear : Book Unit := set empty

/-! ## Observations -/

def order (b : OrderBook) (id : OrderId) : Except Fault (Option OrderView) :=
  match b.orders.lookup id with
  | none => return none
  | some p => do
    let o ← deref (b.nodes.lookup p)
    return some o.view

def orderCount (b : OrderBook) : ℕ := size b.orders

def bestBid (b : OrderBook) : Except Fault (Option Price) := (b.indices .Buy).maximum

def bestAsk (b : OrderBook) : Except Fault (Option Price) := (b.indices .Sell).minimum

def depth (b : OrderBook) (side : Side) (price : Price) : Except Fault (Option Depth) :=
  match (b.levels side).lookup price with
  | none => return none
  | some p => do
    let l ← deref (b.cells.lookup p)
    if l.orderCount = 0 then
      return none
    return some ⟨l.price, l.quantity, l.orderCount⟩

def bestBidDepth (b : OrderBook) : Except Fault (Option Depth) := do
  match ← b.bestBid with
  | some price => b.depth .Buy price
  | none => return none

def bestAskDepth (b : OrderBook) : Except Fault (Option Depth) := do
  match ← b.bestAsk with
  | some price => b.depth .Sell price
  | none => return none

/-- Oldest resting order at a price. -/
def frontOrder (b : OrderBook) (side : Side) (price : Price) :
    Except Fault (Option OrderView) :=
  match (b.levels side).lookup price with
  | none => return none
  | some p => do
    let l ← deref (b.cells.lookup p)
    match l.head with
    | none => return none
    | some head => do
      let o ← deref (b.nodes.lookup head)
      return some o.view

end OrderBook

end Lob
