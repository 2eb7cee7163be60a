import Lob.Book.Simulation

/-!
# Observing a book

A book that represents a reference book shows the same in every observation: the public ones, and
the whole queue at a price, read by following `next` from the head of the level.
-/

namespace Lob

open Basis

namespace OrderBook

/-- The ids at a price, oldest first: `order_count` nodes from the head of the level on. -/
def fifo (b : OrderBook) (side : Side) (price : Price) : List OrderId :=
  match (b.levels side).lookup price with
  | none => []
  | some p =>
    match b.cells.lookup p with
    | none => []
    | some l => (walk b.nextOf l.orderCount l.head).map b.idOf

/-- Every observation of `b` is the one of `r`, and none follows a dangling pointer. -/
structure Observes (b : OrderBook) (r : ReferenceBook) : Prop where
  contains : ∀ id, b.contains id = r.contains id
  order : ∀ id, b.order id = .ok (r.order id)
  orderCount : b.orderCount = r.orderCount
  bestBid : ∃ best, b.bestBid = .ok best ∧ r.IsBest .Buy best ∧
    b.bestBidDepth = .ok (best.bind (r.depth .Buy))
  bestAsk : ∃ best, b.bestAsk = .ok best ∧ r.IsBest .Sell best ∧
    b.bestAskDepth = .ok (best.bind (r.depth .Sell))
  depth : ∀ side price, b.depth side price = .ok (r.depth side price)
  frontOrder : ∀ side price, b.frontOrder side price = .ok (r.frontOrder side price)
  fifo : ∀ side price, b.fifo side price = r.levels side price

variable {b : OrderBook} {q : Queues NodePtr} {r : ReferenceBook} {side : Side} {price : Price}
  {n : NodePtr}

/-- A queued node and its order. -/
theorem Agrees.order_of_mem (h : Agrees b q r) (hlay : Layout b q none) (hn : n ∈ q side price) :
    ∃ o, b.Resting side price n o ∧ b.idOf n = o.id ∧ r.order (b.idOf n) = some o.view ∧
      r.shares (b.idOf n) = b.shares n := by
  obtain ⟨o, ro⟩ := hlay.node _ _ _ hn
  have hid := idOf_of_lookup ro.node
  have hr : r.orders.lookup o.id = some o.reference := by
    rw [h.orders, orderOf_of_lookup ro.owner ro.node]
  refine ⟨o, ro, hid, ?_, ?_⟩
  · unfold ReferenceBook.order
    rw [hid, hr]; rfl
  · unfold ReferenceBook.shares
    rw [hid, hr, shares_of_lookup ro.node]; rfl

theorem Agrees.order_eq (h : Agrees b q r) (hlay : Layout b q none) (id : OrderId) :
    b.order id = .ok (r.order id) := by
  unfold OrderBook.order ReferenceBook.order
  cases hr : r.orders.lookup id with
  | none => rw [h.lookup_none hlay hr]; rfl
  | some ref =>
    obtain ⟨n, o, hn, ro, _, rfl, rfl⟩ := h.lookup_some hlay hr
    rw [hn]
    simp only [ro.node, deref_some, except_ok_bind]
    rfl

theorem Agrees.orderCount_eq (h : Agrees b q r) (hlay : Layout b q none) :
    b.orderCount = r.orderCount := by
  exact size_congr (h.contains hlay)

theorem Layout.empty_of_no_level (h : Layout b q none) (hp : (b.levels side).lookup price = none) :
    q side price = [] := by
  by_contra hne
  obtain ⟨p, hp'⟩ := h.listed side price hne
  rw [hp] at hp'; cases hp'

theorem Agrees.depth_eq (h : Agrees b q r) (hlay : Layout b q none) (side : Side) (price : Price) :
    b.depth side price = .ok (r.depth side price) := by
  unfold OrderBook.depth ReferenceBook.depth
  cases hp : (b.levels side).lookup price with
  | none => rw [if_pos (h.level_eq_nil.mpr (hlay.empty_of_no_level hp))]; rfl
  | some p =>
    obtain ⟨l, hl, hfits⟩ := hlay.cell side price p hp
    have hcount : l.orderCount = 0 ↔ r.levels side price = [] := by
      rw [h.level_eq_nil, hfits.count, List.length_eq_zero_iff]
    have hsum : ((r.levels side price).map r.shares).sum = l.quantity := by
      rw [hfits.quantity, h.levels, List.map_map]
      congr 1
      refine List.map_congr_left fun n hn => ?_
      obtain ⟨_, _, _, _, hs⟩ := h.order_of_mem hlay hn
      exact hs
    have hlen : (r.levels side price).length = l.orderCount := by
      rw [hfits.count, h.levels, List.length_map]
    simp only [hl, deref_some, except_ok_bind, hcount, hsum, hlen, hfits.price]
    split_ifs <;> rfl

theorem Agrees.frontOrder_eq (h : Agrees b q r) (hlay : Layout b q none) (side : Side)
    (price : Price) : b.frontOrder side price = .ok (r.frontOrder side price) := by
  unfold OrderBook.frontOrder ReferenceBook.frontOrder
  rw [h.levels, List.head?_map]
  cases hp : (b.levels side).lookup price with
  | none => rw [hlay.empty_of_no_level hp]; rfl
  | some p =>
    obtain ⟨l, hl, hfits⟩ := hlay.cell side price p hp
    simp only [hl, deref_some, except_ok_bind, hfits.head]
    cases hq : (q side price).head? with
    | none => rfl
    | some n =>
      obtain ⟨o, ro, _, hview, _⟩ := h.order_of_mem hlay (List.mem_of_head? hq)
      simp only [ro.node, deref_some, except_ok_bind, Option.map_some, Option.bind_some, hview]
      rfl

theorem Agrees.fifo_eq (h : Agrees b q r) (hlay : Layout b q none) (side : Side) (price : Price) :
    b.fifo side price = r.levels side price := by
  unfold fifo
  rw [show r.levels side price = (q side price).map b.idOf by rw [h.levels]]
  cases hp : (b.levels side).lookup price with
  | none => rw [hlay.empty_of_no_level hp]; rfl
  | some p =>
    obtain ⟨l, hl, hfits⟩ := hlay.cell side price p hp
    simp only [hl]
    rw [hfits.count, hfits.head, (hlay.linked side price).walk_eq]

/-- The prices in an index are those with a resting order. -/
theorem Agrees.prices_eq (h : Agrees b q r) (hix : Indexed b q) (side : Side) :
    r.prices side = {price | (b.indices side).Active price} := by
  ext price
  exact (not_congr h.level_eq_nil).trans (hix.active side price).symm

theorem Agrees.bestBid_eq (h : Agrees b q r) (hlay : Layout b q none) (hix : Indexed b q) :
    ∃ best, b.bestBid = .ok best ∧ r.IsBest .Buy best ∧
      b.bestBidDepth = .ok (best.bind (r.depth .Buy)) := by
  unfold bestBidDepth
  rcases PriceIndex.maximum_spec (hix.wf .Buy) with ⟨hmax, hnone⟩ | ⟨price, hmax, hbest⟩
  · refine ⟨none, hmax, ?_, ?_⟩
    · show r.prices .Buy = ∅
      rw [h.prices_eq hix]
      exact Set.eq_empty_of_forall_notMem hnone
    · rw [show b.bestBid = .ok none from hmax]; rfl
  · refine ⟨some price, hmax, ?_, ?_⟩
    · show IsGreatest (r.prices .Buy) price
      rw [h.prices_eq hix]
      exact hbest
    · rw [show b.bestBid = .ok (some price) from hmax]
      exact h.depth_eq hlay .Buy price

theorem Agrees.bestAsk_eq (h : Agrees b q r) (hlay : Layout b q none) (hix : Indexed b q) :
    ∃ best, b.bestAsk = .ok best ∧ r.IsBest .Sell best ∧
      b.bestAskDepth = .ok (best.bind (r.depth .Sell)) := by
  unfold bestAskDepth
  rcases PriceIndex.minimum_spec (hix.wf .Sell) with ⟨hmin, hnone⟩ | ⟨price, hmin, hbest⟩
  · refine ⟨none, hmin, ?_, ?_⟩
    · show r.prices .Sell = ∅
      rw [h.prices_eq hix]
      exact Set.eq_empty_of_forall_notMem hnone
    · rw [show b.bestAsk = .ok none from hmin]; rfl
  · refine ⟨some price, hmin, ?_, ?_⟩
    · show IsLeast (r.prices .Sell) price
      rw [h.prices_eq hix]
      exact hbest
    · rw [show b.bestAsk = .ok (some price) from hmin]
      exact h.depth_eq hlay .Sell price

/-- **Observations agree.** -/
theorem Represents.observes (h : Represents b r) : Observes b r := by
  obtain ⟨q, hlay, hix, hag⟩ := h
  exact ⟨hag.contains hlay, hag.order_eq hlay, hag.orderCount_eq hlay, hag.bestBid_eq hlay hix,
    hag.bestAsk_eq hlay hix, hag.depth_eq hlay, hag.frontOrder_eq hlay, hag.fifo_eq hlay⟩

/-! ## Books that show the same -/

/-- Every observation of the books is the same. -/
structure SameObservations (b b' : OrderBook) : Prop where
  contains : ∀ id, b'.contains id = b.contains id
  order : ∀ id, b'.order id = b.order id
  orderCount : b'.orderCount = b.orderCount
  bestBid : b'.bestBid = b.bestBid
  bestBidDepth : b'.bestBidDepth = b.bestBidDepth
  bestAsk : b'.bestAsk = b.bestAsk
  bestAskDepth : b'.bestAskDepth = b.bestAskDepth
  depth : ∀ side price, b'.depth side price = b.depth side price
  frontOrder : ∀ side price, b'.frontOrder side price = b.frontOrder side price
  fifo : ∀ side price, b'.fifo side price = b.fifo side price

end OrderBook

/-- A side without prices has no best one. -/
theorem ReferenceBook.IsBest.none_of_empty {r : ReferenceBook} {side : Side} {best : Option Price}
    (hempty : r.prices side = ∅) (h : r.IsBest side best) : best = none := by
  cases best with
  | none => rfl
  | some price =>
    have hmem : price ∈ r.prices side := by
      cases side
      · exact (show IsGreatest _ price from h).1
      · exact (show IsLeast _ price from h).1
    rw [hempty] at hmem
    exact absurd hmem (Set.notMem_empty price)

/-- A side has one best price. -/
theorem ReferenceBook.IsBest.unique {r : ReferenceBook} {side : Side} {best best' : Option Price}
    (h : r.IsBest side best) (h' : r.IsBest side best') : best = best' := by
  cases side with
  | Buy =>
    cases best with
    | none => exact (IsBest.none_of_empty h h').symm
    | some price =>
      cases best' with
      | none => exact IsBest.none_of_empty h' h
      | some price' =>
        have hle : price ≤ price' := (show IsGreatest _ price' from h').2 (And.left h)
        have hle' : price' ≤ price := (show IsGreatest _ price from h).2 (And.left h')
        exact congrArg some (BitVec.le_antisymm hle hle')
  | Sell =>
    cases best with
    | none => exact (IsBest.none_of_empty h h').symm
    | some price =>
      cases best' with
      | none => exact IsBest.none_of_empty h' h
      | some price' =>
        have hle : price ≤ price' := (show IsLeast _ price from h).2 (And.left h')
        have hle' : price' ≤ price := (show IsLeast _ price' from h').2 (And.left h)
        exact congrArg some (BitVec.le_antisymm hle hle')

namespace OrderBook

variable {b b' : OrderBook} {r : ReferenceBook}

/-- Books that represent the same reference book show the same. -/
theorem Observes.same (h : Observes b r) (h' : Observes b' r) : SameObservations b b' := by
  obtain ⟨bid, hbid, hisBid, hbidDepth⟩ := h.bestBid
  obtain ⟨bid', hbid', hisBid', hbidDepth'⟩ := h'.bestBid
  obtain ⟨ask, hask, hisAsk, haskDepth⟩ := h.bestAsk
  obtain ⟨ask', hask', hisAsk', haskDepth'⟩ := h'.bestAsk
  obtain rfl := hisBid.unique hisBid'
  obtain rfl := hisAsk.unique hisAsk'
  constructor
  · exact fun id => by rw [h.contains, h'.contains]
  · exact fun id => by rw [h.order, h'.order]
  · rw [h.orderCount, h'.orderCount]
  · rw [hbid, hbid']
  · rw [hbidDepth, hbidDepth']
  · rw [hask, hask']
  · rw [haskDepth, haskDepth']
  · exact fun side price => by rw [h.depth, h'.depth]
  · exact fun side price => by rw [h.frontOrder, h'.frontOrder]
  · exact fun side price => by rw [h.fifo, h'.fifo]

end OrderBook

end Lob
