import Lob.Common
import Mathlib.Algebra.BigOperators.Group.List.Basic
import Mathlib.Order.Bounds.Defs

/-!
# The reference book

What an order book is for, without its data structures: a map from ids to orders and, for every
side and price, the list of resting ids, oldest first. A price level exists exactly where that list
is not empty. The operations are those of the model the source's tests compare the book with.
-/

namespace Lob

open Basis

/-! ## Queues -/

/-- A queue at every side and price. -/
abbrev Queues (α : Type) := Side → Price → List α

section Queues

variable {α : Type} {q : Queues α} {side side' : Side} {price price' : Price} {queue : List α}

/-- The queues with the one at `side` and `price` replaced. -/
def Queues.set (q : Queues α) (side : Side) (price : Price) (queue : List α) : Queues α :=
  fun side' price' => if side' = side ∧ price' = price then queue else q side' price'

theorem Queues.set_self : q.set side price queue side price = queue := if_pos ⟨rfl, rfl⟩

theorem Queues.set_of_ne (h : ¬(side' = side ∧ price' = price)) :
    q.set side price queue side' price' = q side' price' := if_neg h

theorem Queues.set_same : q.set side price (q side price) = q := by
  funext side' price'
  by_cases e : side' = side ∧ price' = price
  · obtain ⟨rfl, rfl⟩ := e; exact Queues.set_self
  · exact Queues.set_of_ne e

theorem Queues.set_map {β : Type} (f : α → β) :
    (fun side' price' => (q.set side price queue side' price').map f) =
      Queues.set (fun side' price' => (q side' price').map f) side price (queue.map f) := by
  funext side' price'
  by_cases e : side' = side ∧ price' = price
  · obtain ⟨rfl, rfl⟩ := e; rw [Queues.set_self, Queues.set_self]
  · rw [Queues.set_of_ne e, Queues.set_of_ne e]

end Queues

/-! ## Observations of a book -/

/-- Aggregated displayed quantity at one price on one side of the book. -/
structure Depth where
  price : Price
  quantity : BitVec 64
  orderCount : ℕ
  deriving DecidableEq

/-- A read-only snapshot of an individual resting order. -/
structure OrderView where
  orderId : OrderId
  side : Side
  price : Price
  quantity : Quantity
  deriving DecidableEq

/-! ## The book -/

structure ReferenceOrder where
  side : Side
  price : Price
  quantity : Quantity
  deriving DecidableEq

structure ReferenceBook where
  orders : Map OrderId ReferenceOrder
  levels : Queues OrderId

namespace ReferenceBook

variable (r : ReferenceBook)

def empty : ReferenceBook := ⟨∅, fun _ _ => []⟩

def contains (id : OrderId) : Bool := (r.orders.lookup id).isSome

def pushBack (side : Side) (price : Price) (id : OrderId) : ReferenceBook :=
  { r with levels := r.levels.set side price (r.levels side price ++ [id]) }

/-- `order` is the entry of `id`, so that the queue has it. -/
def removeFromLevel (id : OrderId) (order : ReferenceOrder) : ReferenceBook :=
  { r with
    levels := r.levels.set order.side order.price ((r.levels order.side order.price).erase id) }

def setOrder (id : OrderId) (order : ReferenceOrder) : ReferenceBook :=
  { r with orders := r.orders.insert id order }

def eraseOrder (id : OrderId) : ReferenceBook := { r with orders := r.orders.erase id }

/-! ## Operations -/

def add (id : OrderId) (side : Side) (price : Price) (quantity : Quantity) :
    Bool × ReferenceBook :=
  if quantity = 0 ∨ r.contains id = true then (false, r)
  else (true, (r.setOrder id ⟨side, price, quantity⟩).pushBack side price id)

def erase (id : OrderId) : Bool × ReferenceBook :=
  match r.orders.lookup id with
  | none => (false, r)
  | some order => (true, (r.removeFromLevel id order).eraseOrder id)

def cancel (id : OrderId) (quantity : Quantity) : Bool × ReferenceBook :=
  match r.orders.lookup id with
  | none => (false, r)
  | some order =>
    if quantity = 0 ∨ quantity > order.quantity then (false, r)
    else if quantity = order.quantity then r.erase id
    else (true, r.setOrder id { order with quantity := order.quantity - quantity })

def execute (id : OrderId) (quantity : Quantity) : Bool × ReferenceBook := r.cancel id quantity

def modify (id : OrderId) (newPrice : Price) (newQuantity : Quantity) : Bool × ReferenceBook :=
  match r.orders.lookup id with
  | none => (false, r)
  | some order =>
    if newQuantity = 0 then (false, r)
    else if newPrice = order.price ∧ newQuantity ≤ order.quantity then
      (true, r.setOrder id { order with quantity := newQuantity })
    else
      (true, ((r.removeFromLevel id order).setOrder id ⟨order.side, newPrice, newQuantity⟩).pushBack
        order.side newPrice id)

def replace (oldId newId : OrderId) (newPrice : Price) (newQuantity : Quantity) :
    Bool × ReferenceBook :=
  match r.orders.lookup oldId with
  | none => (false, r)
  | some order =>
    if newQuantity = 0 then (false, r)
    else if oldId = newId then r.modify oldId newPrice newQuantity
    else if r.contains newId then (false, r)
    else (r.add newId order.side newPrice newQuantity).2.erase oldId

/-! ## Observations -/

def order (id : OrderId) : Option OrderView :=
  (r.orders.lookup id).map fun o => ⟨id, o.side, o.price, o.quantity⟩

def orderCount : ℕ := size r.orders

/-- The shares of an order, as depth counts them. -/
def shares (id : OrderId) : BitVec 64 :=
  ((r.orders.lookup id).map fun o => o.quantity.setWidth 64).getD 0

def depth (side : Side) (price : Price) : Option Depth :=
  if r.levels side price = [] then none
  else some ⟨price, ((r.levels side price).map r.shares).sum, (r.levels side price).length⟩

def frontOrder (side : Side) (price : Price) : Option OrderView :=
  (r.levels side price).head?.bind r.order

/-- The prices of a side with a resting order. -/
def prices (side : Side) : Set Price := {price | r.levels side price ≠ []}

/-- The best price of a side: the greatest bid, the least ask. -/
def IsBest (side : Side) (best : Option Price) : Prop :=
  match side, best with
  | _, none => r.prices side = ∅
  | .Buy, some price => IsGreatest (r.prices .Buy) price
  | .Sell, some price => IsLeast (r.prices .Sell) price

/-- Ids and queues belong together: an id is queued exactly once, where its order says. -/
structure WF : Prop where
  queued : ∀ side price, ∀ id ∈ r.levels side price,
    ∃ quantity, r.orders.lookup id = some ⟨side, price, quantity⟩ ∧ quantity ≠ 0
  resting : ∀ id order, r.orders.lookup id = some order → id ∈ r.levels order.side order.price
  nodup : ∀ side price, (r.levels side price).Nodup

/-! ## The number of orders -/

section OrderCount

variable {r} {id : OrderId} {order : ReferenceOrder} {side : Side} {price : Price}
  {quantity : Quantity}

theorem add_accepted (h : (r.add id side price quantity).1 = true) :
    quantity ≠ 0 ∧ r.contains id = false ∧ (r.add id side price quantity).2 =
      (r.setOrder id ⟨side, price, quantity⟩).pushBack side price id := by
  unfold add at h ⊢
  split_ifs at h ⊢ with hbad
  rw [not_or, Bool.not_eq_true] at hbad
  exact ⟨hbad.1, hbad.2, rfl⟩

theorem add_refused (h : (r.add id side price quantity).1 = false) :
    (r.add id side price quantity).2 = r := by
  unfold add at h ⊢
  split_ifs at h ⊢
  rfl

theorem lookup_of_not_contains (h : r.contains id = false) : r.orders.lookup id = none := by
  unfold contains at h
  simpa using h

theorem add_orderCount (h : (r.add id side price quantity).1 = true) :
    (r.add id side price quantity).2.orderCount = r.orderCount + 1 := by
  obtain ⟨_, hcon, hr⟩ := add_accepted h
  rw [hr]
  exact size_insert_new _ (lookup_of_not_contains hcon)

theorem erase_of_lookup (h : r.orders.lookup id = some order) :
    r.erase id = (true, (r.removeFromLevel id order).eraseOrder id) := by
  unfold erase; rw [h]

theorem erase_accepted (h : (r.erase id).1 = true) : ∃ order, r.orders.lookup id = some order := by
  unfold erase at h
  cases hr : r.orders.lookup id with
  | none => rw [hr] at h; cases h
  | some order => exact ⟨order, rfl⟩

theorem erase_orderCount (h : (r.erase id).1 = true) :
    (r.erase id).2.orderCount + 1 = r.orderCount := by
  obtain ⟨order, hr⟩ := erase_accepted h
  rw [erase_of_lookup hr]
  exact size_erase hr

theorem cancel_accepted (h : (r.cancel id quantity).1 = true) :
    ∃ order, r.orders.lookup id = some order ∧ quantity ≠ 0 ∧ quantity ≤ order.quantity ∧
      (r.cancel id quantity).2 = if quantity = order.quantity then (r.erase id).2
        else r.setOrder id { order with quantity := order.quantity - quantity } := by
  unfold cancel at h ⊢
  cases hr : r.orders.lookup id with
  | none => rw [hr] at h; cases h
  | some order =>
    rw [hr] at h
    simp only at h ⊢
    split_ifs at h ⊢ with hbad hfull
    · rw [not_or] at hbad
      exact ⟨order, rfl, hbad.1, BitVec.not_lt.mp hbad.2, by rw [if_pos hfull]⟩
    · rw [not_or] at hbad
      exact ⟨order, rfl, hbad.1, BitVec.not_lt.mp hbad.2, by rw [if_neg hfull]⟩

theorem cancel_refused (h : (r.cancel id quantity).1 = false) :
    (r.cancel id quantity).2 = r := by
  unfold cancel at h ⊢
  split at h
  · rfl
  rename_i order hlook
  split_ifs at h ⊢ with hbad hfull
  · rfl
  · rw [erase_of_lookup hlook] at h
    cases h

theorem cancel_orderCount (h : (r.cancel id quantity).1 = true)
    (hr : r.orders.lookup id = some order) :
    (r.cancel id quantity).2.orderCount + (if quantity = order.quantity then 1 else 0) =
      r.orderCount := by
  obtain ⟨order', hr', _, _, hcancel⟩ := cancel_accepted h
  obtain rfl : order = order' := Option.some.inj (hr.symm.trans hr')
  rw [hcancel]
  split_ifs with hfull
  · exact erase_orderCount (by rw [erase_of_lookup hr])
  · exact size_insert_old _ hr

theorem modify_orderCount {newPrice : Price} {newQuantity : Quantity} :
    (r.modify id newPrice newQuantity).2.orderCount = r.orderCount := by
  unfold modify
  cases hr : r.orders.lookup id with
  | none => rfl
  | some order =>
    simp only
    split_ifs
    · rfl
    · exact size_insert_old _ hr
    · exact size_insert_old _ hr

theorem replace_orderCount {oldId newId : OrderId} {newPrice : Price} {newQuantity : Quantity}
    (h : (r.replace oldId newId newPrice newQuantity).1 = true) :
    (r.replace oldId newId newPrice newQuantity).2.orderCount = r.orderCount := by
  unfold replace at h ⊢
  cases hr : r.orders.lookup oldId with
  | none => rfl
  | some order =>
    rw [hr] at h
    simp only at h ⊢
    split_ifs at h ⊢ with h0 hsame hcon
    · exact modify_orderCount
    · have hadd : (r.add newId order.side newPrice newQuantity).1 = true := by
        unfold add; rw [if_neg (not_or.mpr ⟨h0, hcon⟩)]
      have hcount := add_orderCount hadd
      have := erase_orderCount h
      omega

end OrderCount

/-! ## Ids and queues stay together -/

variable {r} {id id' : OrderId} {order order' : ReferenceOrder} {side : Side} {price : Price}

theorem WF.empty : ReferenceBook.empty.WF where
  queued _ _ _ h := by cases h
  resting _ _ h := by cases h
  nodup _ _ := List.nodup_nil

theorem WF.place_unique (h : r.WF) (hid : r.orders.lookup id = some order)
    (hm : id ∈ r.levels side price) : order.side = side ∧ order.price = price := by
  obtain ⟨_, hq, _⟩ := h.queued _ _ _ hm
  obtain rfl := Option.some.inj (hid.symm.trans hq)
  exact ⟨rfl, rfl⟩

theorem WF.positive (h : r.WF) (hid : r.orders.lookup id = some order) : order.quantity ≠ 0 := by
  obtain ⟨_, hq, hpos⟩ := h.queued _ _ _ (h.resting _ _ hid)
  rw [Option.some.inj (hid.symm.trans hq)]
  exact hpos

theorem order_eq (h : r.orders.lookup id = some order) :
    r.order id = some ⟨id, order.side, order.price, order.quantity⟩ := by
  unfold ReferenceBook.order; rw [h]; rfl

/-- An order whose quantity changes keeps its place. -/
theorem WF.resize (h : r.WF) (hid : r.orders.lookup id = some order) {quantity : Quantity}
    (hpos : quantity ≠ 0) : (r.setOrder id { order with quantity := quantity }).WF where
  queued side price id' hm := by
    show ∃ k, (r.orders.insert id _).lookup id' = _ ∧ _
    rw [lookup_insert_ite]
    split_ifs with e
    · subst e
      obtain ⟨rfl, rfl⟩ := h.place_unique hid hm
      exact ⟨quantity, rfl, hpos⟩
    · exact h.queued _ _ _ hm
  resting id' order' h' := by
    change (r.orders.insert id _).lookup id' = _ at h'
    rw [lookup_insert_ite] at h'
    split_ifs at h' with e
    · cases h'
      rw [e]
      exact (h.resting _ _ hid : id ∈ r.levels order.side order.price)
    · exact h.resting _ _ h'
  nodup := h.nodup

theorem mem_removeFromLevel (h : r.WF) :
    id' ∈ ((r.removeFromLevel id order).eraseOrder id).levels side price ↔
      id' ∈ r.levels side price ∧ ¬(id' = id ∧ side = order.side ∧ price = order.price) := by
  show id' ∈ (r.levels.set order.side order.price _) side price ↔ _
  by_cases e : side = order.side ∧ price = order.price
  · rw [e.1, e.2, Queues.set_self, (h.nodup _ _).mem_erase_iff]
    simp [and_comm]
  · rw [Queues.set_of_ne e]
    simp [e]

theorem WF.erase (h : r.WF) (hid : r.orders.lookup id = some order) :
    ((r.removeFromLevel id order).eraseOrder id).WF where
  queued side price id' hm := by
    obtain ⟨hold, hne⟩ := (mem_removeFromLevel h).mp hm
    show ∃ k, (r.orders.erase id).lookup id' = _ ∧ _
    rw [lookup_erase_ite, if_neg]
    · exact h.queued _ _ _ hold
    · rintro rfl
      obtain ⟨rfl, rfl⟩ := h.place_unique hid hold
      exact hne ⟨rfl, rfl, rfl⟩
  resting id' order' h' := by
    change (r.orders.erase id).lookup id' = _ at h'
    rw [lookup_erase_ite] at h'
    split_ifs at h' with e
    exact (mem_removeFromLevel h).mpr ⟨h.resting _ _ h', fun e' => e e'.1⟩
  nodup side price := by
    show ((r.levels.set order.side order.price _) side price).Nodup
    by_cases e : side = order.side ∧ price = order.price
    · rw [e.1, e.2, Queues.set_self]
      exact (h.nodup _ _).erase _
    · rw [Queues.set_of_ne e]
      exact h.nodup _ _

end ReferenceBook

end Lob
