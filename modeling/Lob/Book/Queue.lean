import Lob.Book.Observations
import Lob.Basis.Greedy

/-!
# Price-time priority

The queue of a side: its resting orders, best price first and oldest first at a price, restricted to
the prices that a predicate lets through. Executing the head of the queue removes it, or shrinks it
in its place; a greedy sweep of the queue leaves what is left over by `Basis.greedy`.
-/

namespace Lob

open Basis

/-! ## The order of prices -/

/-- All prices, ascending. -/
@[irreducible] def allPrices : List Price := (List.finRange (2 ^ 32)).map BitVec.ofFin

theorem mem_allPrices (price : Price) : price ∈ allPrices := by
  unfold allPrices
  exact List.mem_map.mpr ⟨price.toFin, List.mem_finRange _, rfl⟩

theorem allPrices_pairwise : allPrices.Pairwise (· < ·) := by
  unfold allPrices
  rw [List.pairwise_map]
  exact (List.pairwise_lt_finRange _).imp fun h => h

/-- The prices of a side, best first. -/
def priceOrder : Side → List Price
  | .Buy => allPrices.reverse
  | .Sell => allPrices

/-- `price` comes before `price'` on its side. -/
def Better (side : Side) (price price' : Price) : Prop :=
  match side with
  | .Buy => price' < price
  | .Sell => price < price'

theorem mem_priceOrder (side : Side) (price : Price) : price ∈ priceOrder side := by
  cases side
  · exact List.mem_reverse.mpr (mem_allPrices price)
  · exact mem_allPrices price

theorem priceOrder_pairwise (side : Side) : (priceOrder side).Pairwise (Better side) := by
  cases side
  · exact List.pairwise_reverse.mpr allPrices_pairwise
  · exact allPrices_pairwise

theorem better_ne {side : Side} {price price' : Price} (h : Better side price price') :
    price ≠ price' := by
  rintro rfl
  cases side <;> exact absurd h (BitVec.lt_irrefl _)

/-- The shares of an order. -/
def OrderView.held (v : OrderView) : ℕ := v.quantity.toNat

/-- The order with `n` shares less. -/
def OrderView.shrink (v : OrderView) (n : ℕ) : OrderView :=
  { v with quantity := v.quantity - BitVec.ofNat 32 n }

namespace ReferenceBook

variable {r r' : ReferenceBook} {side : Side} {price : Price} {best : Option Price}
  {reaches : Price → Bool} {id : OrderId} {order : ReferenceOrder}

/-! ## The queue of a side -/

/-- The orders at a price, oldest first. -/
def views (r : ReferenceBook) (side : Side) (price : Price) : List OrderView :=
  (r.levels side price).filterMap r.order

def queue (r : ReferenceBook) (side : Side) (reaches : Price → Bool) : List OrderView :=
  ((priceOrder side).filter reaches).flatMap (r.views side)

theorem views_congr (hl : r'.levels side price = r.levels side price)
    (ho : ∀ id ∈ r.levels side price, r'.order id = r.order id) :
    r'.views side price = r.views side price := by
  unfold views
  rw [hl]
  exact List.filterMap_congr ho

theorem views_eq_nil (h : r.levels side price = []) : r.views side price = [] := by
  unfold views; rw [h]; rfl

theorem WF.mem_views (h : r.WF) {v : OrderView} (hv : v ∈ r.views side price) :
    v.side = side ∧ v.price = price ∧ v.quantity ≠ 0 ∧ v.orderId ∈ r.levels side price ∧
      r.orders.lookup v.orderId = some ⟨v.side, v.price, v.quantity⟩ := by
  obtain ⟨id, hid, hv⟩ := List.mem_filterMap.mp hv
  obtain ⟨quantity, hlook, hpos⟩ := h.queued _ _ _ hid
  rw [order_eq hlook] at hv
  cases hv
  exact ⟨rfl, rfl, hpos, hid, hlook⟩

/-- The front of a level is the first of its orders. -/
theorem WF.views_of_levels (h : r.WF) {ids : List OrderId} (hl : r.levels side price = id :: ids) :
    ∃ v, r.order id = some v ∧ v.orderId = id ∧
      r.views side price = v :: ids.filterMap r.order := by
  obtain ⟨quantity, hlook, _⟩ := h.queued side price id (by rw [hl]; simp)
  refine ⟨_, order_eq hlook, rfl, ?_⟩
  unfold views
  rw [hl, List.filterMap_cons_some (order_eq hlook)]

theorem WF.map_views (h : r.WF) (side : Side) (price : Price) :
    (r.views side price).map OrderView.orderId = r.levels side price := by
  have hviews : ∀ id ∈ r.levels side price, (r.order id).map OrderView.orderId = some id := by
    intro id hid
    obtain ⟨quantity, hlook, _⟩ := h.queued _ _ _ hid
    rw [order_eq hlook]
    rfl
  unfold views
  rw [List.map_filterMap]
  exact (List.filterMap_congr hviews).trans List.filterMap_some

/-- An id is in the queue once. -/
theorem WF.queue_nodup (h : r.WF) (side : Side) (reaches : Price → Bool) :
    ((r.queue side reaches).map OrderView.orderId).Nodup := by
  unfold queue
  rw [List.map_flatMap, List.nodup_flatMap]
  refine ⟨fun price _ => ?_, ?_⟩
  · rw [h.map_views]
    exact h.nodup side price
  · refine ((priceOrder_pairwise side).filter reaches).imp fun {price price'} hbetter => ?_
    intro id hid hid'
    simp only [h.map_views] at hid hid'
    obtain ⟨quantity, hlook, _⟩ := h.queued _ _ _ hid
    exact better_ne hbetter (h.place_unique hlook hid').2

/-- A new order joins at the end of its own level. -/
theorem WF.add_views (h : r.WF) {quantity : Quantity}
    (hok : (r.add id side price quantity).1 = true) (side' : Side) (price' : Price) :
    (r.add id side price quantity).2.views side' price' = r.views side' price' ++
      if side' = side ∧ price' = price then [⟨id, side, price, quantity⟩] else [] := by
  obtain ⟨_, hcon, hr⟩ := add_accepted hok
  have hnew := lookup_of_not_contains hcon
  have hlook : ((r.setOrder id ⟨side, price, quantity⟩).pushBack side price id).order id =
      some ⟨id, side, price, quantity⟩ := by
    show Option.map _ ((r.orders.insert id _).lookup id) = _
    rw [Finmap.lookup_insert]
    rfl
  -- the queued orders are others
  have hold : (r.levels side' price').filterMap
      ((r.setOrder id ⟨side, price, quantity⟩).pushBack side price id).order =
      r.views side' price' := by
    refine List.filterMap_congr fun id' hid' => ?_
    have hne : id' ≠ id := by
      rintro rfl
      obtain ⟨_, hlook', _⟩ := h.queued _ _ _ hid'
      rw [hnew] at hlook'
      cases hlook'
    unfold order
    show Option.map _ ((r.orders.insert id _).lookup id') = _
    rw [Finmap.lookup_insert_of_ne _ hne]
  rw [hr]
  unfold views
  by_cases e : side' = side ∧ price' = price
  · obtain ⟨rfl, rfl⟩ := e
    show ((r.levels.set side' price' (r.levels side' price' ++ [id])) side' price').filterMap _ = _
    rw [Queues.set_self, List.filterMap_append, hold, if_pos ⟨rfl, rfl⟩,
      List.filterMap_cons_some hlook]
    rfl
  · show ((r.levels.set side price (r.levels side price ++ [id])) side' price').filterMap _ = _
    rw [Queues.set_of_ne e, hold, if_neg e, List.append_nil]
    rfl

/-! ## The best price heads the queue -/

theorem IsBest.none_levels (h : r.IsBest side none) (price : Price) :
    r.levels side price = [] := by
  have h : r.prices side = ∅ := by cases side <;> exact h
  by_contra hne
  have : price ∈ r.prices side := hne
  rw [h] at this
  exact this

theorem IsBest.levels_ne (h : r.IsBest side (some price)) : r.levels side price ≠ [] := by
  cases side
  · exact (show IsGreatest (r.prices .Buy) price from h).1
  · exact (show IsLeast (r.prices .Sell) price from h).1

theorem IsBest.better_nil (h : r.IsBest side (some price)) {price' : Price}
    (hb : Better side price' price) : r.levels side price' = [] := by
  by_contra hne
  cases side
  · have := (show IsGreatest (r.prices .Buy) price from h).2 hne
    exact absurd hb (BitVec.not_lt.mpr this)
  · have := (show IsLeast (r.prices .Sell) price from h).2 hne
    exact absurd hb (BitVec.not_lt.mpr this)

theorem queue_nil (h : ∀ price, reaches price = true → r.levels side price = []) :
    r.queue side reaches = [] := by
  unfold queue
  rw [List.flatMap_eq_nil_iff]
  intro price hp
  exact views_eq_nil (h price (List.mem_filter.mp hp).2)

/-- What reaches a price reaches the better ones. -/
def Closed (side : Side) (reaches : Price → Bool) : Prop :=
  ∀ price price', Better side price price' → reaches price' = true → reaches price = true

/-- A best price out of reach ends the queue. -/
theorem IsBest.queue_stop (h : r.IsBest side (some price)) (hcl : Closed side reaches)
    (hp : reaches price = false) : r.queue side reaches = [] := by
  refine queue_nil fun price' hp' => h.better_nil ?_
  by_contra hnb
  have : price = price' ∨ Better side price price' := by
    cases side <;> simp only [Better] at hnb ⊢ <;> bv_omega
  rcases this with rfl | hb
  · rw [hp] at hp'; cases hp'
  · rw [hcl _ _ hb hp'] at hp; cases hp

/-- The best price within reach heads the queue. -/
theorem IsBest.queue_eq (h : r.IsBest side (some price)) (hp : reaches price = true) :
    ∃ rest, r.queue side reaches = r.views side price ++ rest := by
  obtain ⟨before, after, hsplit⟩ := List.append_of_mem (mem_priceOrder side price)
  have hpair := priceOrder_pairwise side
  rw [hsplit, List.pairwise_append] at hpair
  refine ⟨(after.filter reaches).flatMap (r.views side), ?_⟩
  have hnil : (before.filter reaches).flatMap (r.views side) = [] := by
    rw [List.flatMap_eq_nil_iff]
    intro price' hm
    have hb := hpair.2.2 price' (List.mem_filter.mp hm).1 price (by simp)
    exact views_eq_nil (h.better_nil hb)
  unfold queue
  rw [hsplit, List.filter_append, List.filter_cons_of_pos hp, List.flatMap_append,
    List.flatMap_cons, hnil, List.nil_append]

/-! ## Executing the head of the queue -/

/-- What an execution at the front of a level does: the front order is gone or smaller, and the book
is otherwise the same. -/
structure Taken (r r' : ReferenceBook) (v : OrderView) (k : Quantity) : Prop where
  wf : r'.WF
  front : ∀ vs, r.views v.side v.price = v :: vs → r'.views v.side v.price =
    if k = v.quantity then vs else { v with quantity := v.quantity - k } :: vs
  levels : ∀ side price, ¬(side = v.side ∧ price = v.price) →
    r'.levels side price = r.levels side price
  views : ∀ side price, ¬(side = v.side ∧ price = v.price) →
    r'.views side price = r.views side price
  orderCount : r'.orderCount + (if k = v.quantity then 1 else 0) = r.orderCount

theorem WF.levels_of_views (h : r.WF) {v : OrderView} {vs : List OrderView}
    (hv : r.views side price = v :: vs) :
    ∃ ids, r.levels side price = v.orderId :: ids ∧ ids.filterMap r.order = vs := by
  cases hl : r.levels side price with
  | nil => rw [views_eq_nil hl] at hv; cases hv
  | cons id ids =>
    obtain ⟨w, _, hw, hviews⟩ := h.views_of_levels hl
    rw [hviews] at hv
    cases hv
    exact ⟨ids, by rw [hw], rfl⟩

theorem order_congr (h : r'.orders.lookup id = r.orders.lookup id) : r'.order id = r.order id := by
  unfold order; rw [h]

/-- **Executing an order** of the book. -/
theorem WF.execute (h : r.WF) {v : OrderView} {k : Quantity}
    (hv : r.orders.lookup v.orderId = some ⟨v.side, v.price, v.quantity⟩) (hk0 : k ≠ 0)
    (hk : k ≤ v.quantity) :
    (r.execute v.orderId k).1 = true ∧ Taken r (r.execute v.orderId k).2 v k := by
  have hok : ¬(k = 0 ∨ k > v.quantity) := by
    rintro (h0 | hgt)
    · exact hk0 h0
    · exact absurd hk (BitVec.not_le.mpr hgt)
  have hexec : r.execute v.orderId k = if k = v.quantity then r.erase v.orderId
      else (true, r.setOrder v.orderId ⟨v.side, v.price, v.quantity - k⟩) := by
    unfold ReferenceBook.execute ReferenceBook.cancel
    rw [hv]
    exact if_neg hok
  -- elsewhere no queue has the id
  have hother : ∀ side price, ¬(side = v.side ∧ price = v.price) →
      ∀ id ∈ r.levels side price, id ≠ v.orderId := by
    rintro side price e id hm rfl
    obtain ⟨h1, h2⟩ := h.place_unique hv hm
    exact e ⟨h1.symm, h2.symm⟩
  by_cases hfull : k = v.quantity
  · rw [if_pos hfull, erase_of_lookup hv] at hexec
    rw [hexec]
    have hlevels : ∀ side price, ¬(side = v.side ∧ price = v.price) →
        ((r.removeFromLevel v.orderId ⟨v.side, v.price, v.quantity⟩).eraseOrder
          v.orderId).levels side price = r.levels side price :=
      fun _ _ e => Queues.set_of_ne e
    refine ⟨rfl, h.erase hv, ?_, hlevels, ?_, ?_⟩
    · intro vs hvs
      obtain ⟨ids, hl, rfl⟩ := h.levels_of_views hvs
      have hnd := h.nodup v.side v.price
      rw [hl, List.nodup_cons] at hnd
      rw [if_pos hfull]
      show ((r.levels.set v.side v.price ((r.levels v.side v.price).erase v.orderId))
        v.side v.price).filterMap _ = _
      rw [Queues.set_self, hl, List.erase_cons_head]
      refine List.filterMap_congr fun id hid => order_congr ?_
      exact Finmap.lookup_erase_ne fun e => hnd.1 (e ▸ hid)
    · intro side price e
      refine views_congr (hlevels _ _ e) fun id hid => order_congr ?_
      exact Finmap.lookup_erase_ne (hother _ _ e id hid)
    · rw [if_pos hfull]
      exact size_erase hv
  · rw [if_neg hfull] at hexec
    rw [hexec]
    have hpos : v.quantity - k ≠ 0 := by bv_omega
    refine ⟨rfl, h.resize hv hpos, ?_, fun _ _ _ => rfl, ?_, ?_⟩
    · intro vs hvs
      obtain ⟨ids, hl, rfl⟩ := h.levels_of_views hvs
      have hnd := h.nodup v.side v.price
      rw [hl, List.nodup_cons] at hnd
      rw [if_neg hfull]
      show (r.levels v.side v.price).filterMap _ = _
      have hhead : (r.setOrder v.orderId ⟨v.side, v.price, v.quantity - k⟩).orders.lookup
          v.orderId = some ⟨v.side, v.price, v.quantity - k⟩ := Finmap.lookup_insert _
      rw [hl, List.filterMap_cons_some (order_eq hhead)]
      congr 1
      refine List.filterMap_congr fun id hid => order_congr ?_
      exact Finmap.lookup_insert_of_ne _ fun e => hnd.1 (e ▸ hid)
    · intro side price e
      refine views_congr rfl fun id hid => order_congr ?_
      exact Finmap.lookup_insert_of_ne _ (hother _ _ e id hid)
    · rw [if_neg hfull]
      exact size_insert_old _ hv

/-- The first element of a `flatMap`. -/
theorem flatMap_eq_cons {α β : Type} {f : α → List β} {l : List α} {b : β} {rest : List β}
    (h : l.flatMap f = b :: rest) : ∃ before a after bs, l = before ++ a :: after ∧
      (∀ x ∈ before, f x = []) ∧ f a = b :: bs ∧ rest = bs ++ after.flatMap f := by
  induction l with
  | nil => cases h
  | cons x l ih =>
    rw [List.flatMap_cons] at h
    cases hx : f x with
    | nil =>
      rw [hx, List.nil_append] at h
      obtain ⟨before, a, after, bs, rfl, hnil, ha, hrest⟩ := ih h
      refine ⟨x :: before, a, after, bs, rfl, fun y hy => ?_, ha, hrest⟩
      rcases List.mem_cons.mp hy with rfl | hy
      · exact hx
      · exact hnil y hy
    | cons c bs =>
      rw [hx] at h
      cases h
      exact ⟨[], x, l, bs, rfl, by simp, hx, rfl⟩

/-- **The head of the queue** can be executed, and the rest of the queue stays. -/
theorem WF.execute_head (h : r.WF) {v : OrderView} {Q : List OrderView}
    (hQ : r.queue side reaches = v :: Q) :
    v.side = side ∧ reaches v.price = true ∧ 0 < v.held ∧
      r.orders.lookup v.orderId = some ⟨v.side, v.price, v.quantity⟩ ∧
      ∀ r' k, Taken r r' v k → r'.queue side reaches =
        if k = v.quantity then Q else { v with quantity := v.quantity - k } :: Q := by
  obtain ⟨before, price, after, vs, hsplit, hnil, hviews, rfl⟩ := flatMap_eq_cons hQ
  obtain ⟨rfl, rfl, hpos, hmem, hlook⟩ := h.mem_views (v := v) (by rw [hviews]; simp)
  have hp : v.price ∈ (priceOrder v.side).filter reaches := by rw [hsplit]; simp
  have hnd := ((priceOrder_pairwise v.side).filter reaches).imp better_ne
  rw [hsplit, List.pairwise_append, List.pairwise_cons] at hnd
  refine ⟨rfl, (List.mem_filter.mp hp).2, Nat.pos_of_ne_zero fun e => hpos ?_, hlook, ?_⟩
  · exact BitVec.eq_of_toNat_eq e
  intro r' k ht
  unfold queue
  rw [hsplit, List.flatMap_append, List.flatMap_cons, ht.front _ hviews]
  have hbefore : before.flatMap (r'.views v.side) = [] := by
    rw [List.flatMap_eq_nil_iff]
    intro price hm
    rw [ht.views _ _ fun e => hnd.2.2 price hm v.price (by simp) e.2]
    exact hnil price hm
  have hafter : after.flatMap (r'.views v.side) = after.flatMap (r.views v.side) :=
    List.flatMap_congr fun price hm => ht.views _ _ fun e => hnd.2.1.1 price hm e.2.symm
  rw [hbefore, hafter, List.nil_append]
  split_ifs <;> rfl

/-! ## The sweep -/

/-- The book after executing what was taken. -/
def take (r : ReferenceBook) (taken : List (OrderView × ℕ)) : ReferenceBook :=
  taken.foldl (fun r x => (r.execute x.1.orderId (BitVec.ofNat 32 x.2)).2) r

theorem contains_cancel {id' : OrderId} {k : Quantity}
    (h : (r.cancel id k).2.contains id' = true) : r.contains id' = true := by
  unfold contains at h ⊢
  unfold cancel at h
  split at h
  · exact h
  rename_i order hlook
  split_ifs at h with hbad hfull
  · exact h
  · rw [erase_of_lookup hlook] at h
    change ((r.orders.erase id).lookup id').isSome = true at h
    rw [lookup_erase_ite] at h
    split_ifs at h
    · cases h
    · exact h
  · change ((r.orders.insert id _).lookup id').isSome = true at h
    rw [lookup_insert_ite] at h
    split_ifs at h with e
    · rw [e, hlook]; rfl
    · exact h

/-- A sweep brings no id. -/
theorem contains_take {taken : List (OrderView × ℕ)} {id' : OrderId}
    (h : (r.take taken).contains id' = true) : r.contains id' = true := by
  unfold take at h
  induction taken generalizing r with
  | nil => exact h
  | cons x taken ih => exact contains_cancel (ih h)

/-- The amount taken from the head is one that `execute` accepts. -/
theorem toNat_ofNat_min (v : OrderView) (n : ℕ) :
    (BitVec.ofNat 32 (min n v.held)).toNat = min n v.held := by
  rw [BitVec.toNat_ofNat, Nat.mod_eq_of_lt]
  exact lt_of_le_of_lt (Nat.min_le_right _ _) v.quantity.isLt

/-- One step of the sweep, on the queue. -/
theorem WF.sweep_step (h : r.WF) {v : OrderView} {Q : List OrderView} {n : ℕ}
    (hQ : r.queue side reaches = v :: Q) (hn : n ≠ 0) :
    let k := BitVec.ofNat 32 (min n v.held)
    let r' := (r.execute v.orderId k).2
    (r.execute v.orderId k).1 = true ∧ Taken r r' v k ∧
      greedy OrderView.held (v :: Q) n =
        (v, min n v.held) :: greedy OrderView.held (r'.queue side reaches) (n - min n v.held) ∧
      leftover OrderView.held OrderView.shrink (v :: Q) n =
        leftover OrderView.held OrderView.shrink (r'.queue side reaches) (n - min n v.held) := by
  intro k r'
  obtain ⟨rfl, _, hpos, hlook, hqueue⟩ := h.execute_head hQ
  have hk : k.toNat = min n v.held := toNat_ofNat_min v n
  have hheld : v.held = v.quantity.toNat := rfl
  have hk0 : k ≠ 0 := by
    intro e
    rw [e] at hk
    have : min n v.held = 0 := hk.symm
    omega
  have hle : k ≤ v.quantity := by
    rw [BitVec.le_def, hk]
    exact Nat.min_le_right _ _
  obtain ⟨hok, ht⟩ := h.execute hlook hk0 hle
  refine ⟨hok, ht, ?_⟩
  rw [hqueue r' k ht]
  by_cases hcase : v.held ≤ n
  · have hmin : min n v.held = v.held := Nat.min_eq_right hcase
    have hfull : k = v.quantity := BitVec.eq_of_toNat_eq (by rw [hk, hmin, hheld])
    rw [if_pos hfull, hmin]
    exact ⟨greedy_cons_of_le hn hcase, leftover_cons_of_le hn hcase⟩
  · have hlt : n < v.held := by omega
    have hmin : min n v.held = n := by omega
    have hne : k ≠ v.quantity := by
      intro e
      rw [e, hmin] at hk
      omega
    rw [if_neg hne, hmin, Nat.sub_self, greedy_zero, leftover_zero]
    refine ⟨greedy_cons_of_lt hn hlt, ?_⟩
    rw [leftover_cons_of_lt hn hlt]
    unfold OrderView.shrink
    rw [← hmin]

/-- What a sweep leaves: the queue within reach is what `greedy` left over, and the levels outside it
are untouched. -/
theorem WF.sweep (h : r.WF) (side : Side) (reaches : Price → Bool) (n : ℕ) :
    let r' := r.take (greedy OrderView.held (r.queue side reaches) n)
    r'.WF ∧ r'.queue side reaches = leftover OrderView.held OrderView.shrink (r.queue side reaches) n ∧
      r'.orderCount + (r.queue side reaches).length =
        r.orderCount + (r'.queue side reaches).length ∧
      ∀ side' price', ¬(side' = side ∧ reaches price' = true) →
        r'.levels side' price' = r.levels side' price' ∧
          r'.views side' price' = r.views side' price' := by
  induction n using Nat.strong_induction_on generalizing r with
  | _ n ih =>
    by_cases hn : n = 0
    · rw [hn, greedy_zero, leftover_zero]
      exact ⟨h, rfl, rfl, fun _ _ _ => ⟨rfl, rfl⟩⟩
    cases hQ : r.queue side reaches with
    | nil => exact ⟨h, hQ, by show r.orderCount + 0 = _ + (r.queue side reaches).length; rw [hQ]; rfl,
        fun _ _ _ => ⟨rfl, rfl⟩⟩
    | cons v Q =>
      obtain ⟨_, ht, hgreedy, hleft⟩ := h.sweep_step hQ hn
      obtain ⟨rfl, hreach, hpos, _, hhead⟩ := h.execute_head hQ
      obtain ⟨hwf, hqueue, hcount, hframe⟩ := ih (n - min n v.held) (by omega) ht.wf
      rw [hgreedy, hleft]
      set r₁ := (r.execute v.orderId (BitVec.ofNat 32 (min n v.held))).2
      set r' := r₁.take (greedy OrderView.held (r₁.queue v.side reaches) (n - min n v.held))
      have hlast : r'.orderCount + (Q.length + 1) =
          r.orderCount + (r'.queue v.side reaches).length := by
        have hone := ht.orderCount
        have hlen := congrArg List.length (hhead _ _ ht)
        split_ifs at hlen hone
        · omega
        · rw [List.length_cons] at hlen
          omega
      refine ⟨hwf, hqueue, hlast, fun side' price' e => ?_⟩
      obtain ⟨h1, h2⟩ := hframe side' price' e
      have e' : ¬(side' = v.side ∧ price' = v.price) := fun e' => e ⟨e'.1, e'.2 ▸ hreach⟩
      exact ⟨h1.trans (ht.levels _ _ e'), h2.trans (ht.views _ _ e')⟩

end ReferenceBook

/-! ## The views of a book -/

/-- The orders at a price, oldest first, read from the book. -/
def OrderBook.views (b : OrderBook) (side : Side) (price : Price) : List OrderView :=
  (b.fifo side price).filterMap fun id => (b.order id).toOption.join

theorem OrderBook.Observes.views_eq {b : OrderBook} {r : ReferenceBook} (h : b.Observes r)
    (side : Side) (price : Price) : b.views side price = r.views side price := by
  unfold OrderBook.views ReferenceBook.views
  rw [h.fifo]
  refine List.filterMap_congr fun id _ => ?_
  rw [h.order]
  rfl

/-! ## The best price -/

namespace ReferenceBook

variable {r : ReferenceBook} {b : OrderBook} {side : Side}

/-- The first price of a side that has an order. -/
def bestPrice (r : ReferenceBook) (side : Side) : Option Price :=
  (priceOrder side).find? fun price => r.levels side price ≠ []

theorem isBest_bestPrice (r : ReferenceBook) (side : Side) : r.IsBest side (r.bestPrice side) := by
  cases hbest : r.bestPrice side with
  | none =>
    have hnone := List.find?_eq_none.mp hbest
    have hempty : r.prices side = ∅ := by
      ext price
      have := hnone price (mem_priceOrder side price)
      simp only [decide_eq_true_eq, not_not] at this
      exact iff_of_false (fun h => h this) id
    cases side <;> exact hempty
  | some price =>
    obtain ⟨hlevel, before, after, hsplit, hbefore⟩ := List.find?_eq_some_iff_append.mp hbest
    have hpair := priceOrder_pairwise side
    rw [hsplit, List.pairwise_append, List.pairwise_cons] at hpair
    have hlevel : r.levels side price ≠ [] := of_decide_eq_true hlevel
    -- the other prices with orders come later
    have hworse : ∀ price', r.levels side price' ≠ [] → price' = price ∨ Better side price price' := by
      intro price' hprice'
      have hmem := mem_priceOrder side price'
      rw [hsplit, List.mem_append, List.mem_cons] at hmem
      rcases hmem with hb | rfl | ha
      · have := hbefore _ hb
        simp only [Bool.not_eq_true', decide_eq_false_iff_not] at this
        exact absurd hprice' this
      · exact Or.inl rfl
      · exact Or.inr (hpair.2.1.1 _ ha)
    cases side with
    | Buy =>
      refine ⟨hlevel, fun price' h => ?_⟩
      rcases hworse price' h with rfl | hb
      · exact BitVec.le_refl _
      · exact BitVec.le_of_lt hb
    | Sell =>
      refine ⟨hlevel, fun price' h => ?_⟩
      rcases hworse price' h with rfl | hb
      · exact BitVec.le_refl _
      · exact BitVec.le_of_lt hb

/-- The depth at the best price. -/
def bestDepth (r : ReferenceBook) (side : Side) : Option Depth := (r.bestPrice side).bind (r.depth side)

theorem observes_bestBidDepth (h : b.Observes r) : b.bestBidDepth = .ok (r.bestDepth .Buy) := by
  obtain ⟨best, _, hbest, hdepth⟩ := h.bestBid
  rw [hdepth, hbest.unique (isBest_bestPrice r .Buy)]
  rfl

theorem observes_bestAskDepth (h : b.Observes r) : b.bestAskDepth = .ok (r.bestDepth .Sell) := by
  obtain ⟨best, _, hbest, hdepth⟩ := h.bestAsk
  rw [hdepth, hbest.unique (isBest_bestPrice r .Sell)]
  rfl

end ReferenceBook

end Lob
