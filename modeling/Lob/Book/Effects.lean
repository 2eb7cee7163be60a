import Lob.Book.Priority
import Lob.Book.Queue

/-!
# Acceptance and effect

When the operations of a book accept, and what they make of its orders, by what the book shows: the
order of an id, and the orders at a price, oldest first.
-/

namespace Lob

open Basis

/-- What a reduction leaves of an order. -/
def OrderView.reduce (id : OrderId) (quantity : Quantity) (v : OrderView) : Option OrderView :=
  if v.orderId = id then
    if v.quantity = quantity then none else some { v with quantity := v.quantity - quantity }
  else some v

namespace ReferenceBook

variable {r : ReferenceBook} {id id' : OrderId} {side : Side} {price : Price} {quantity : Quantity}

/-! ## Acceptance -/

theorem contains_eq_false : r.contains id = false ↔ r.order id = none := by
  unfold contains order
  cases r.orders.lookup id <;> simp

theorem add_accepts_iff : (r.add id side price quantity).1 = true ↔
    quantity ≠ 0 ∧ r.order id = none := by
  unfold add
  rw [← contains_eq_false]
  split_ifs with hbad
  · refine iff_of_false not_false ?_
    rintro ⟨hpos, hcon⟩
    rcases hbad with hzero | hcon'
    · exact hpos hzero
    · rw [hcon] at hcon'
      cases hcon'
  · rw [not_or, Bool.not_eq_true] at hbad
    exact iff_of_true rfl hbad

theorem cancel_accepts_iff : (r.cancel id quantity).1 = true ↔
    ∃ v, r.order id = some v ∧ quantity ≠ 0 ∧ quantity ≤ v.quantity := by
  unfold order
  constructor
  · intro hok
    obtain ⟨order, hlook, hpos, hle, _⟩ := cancel_accepted hok
    exact ⟨_, by rw [hlook]; rfl, hpos, hle⟩
  · rintro ⟨v, hv, hpos, hle⟩
    obtain ⟨order, hlook, rfl⟩ := Option.map_eq_some_iff.mp hv
    by_contra hrefused
    rw [Bool.not_eq_true] at hrefused
    unfold cancel at hrefused
    rw [hlook] at hrefused
    simp only at hrefused
    split_ifs at hrefused with hbad hfull
    · rcases hbad with hzero | hgt
      · exact hpos hzero
      · exact absurd hle (BitVec.not_le.mpr hgt)
    · rw [erase_of_lookup hlook] at hrefused
      cases hrefused

theorem erase_accepts_iff : (r.erase id).1 = true ↔ (r.order id).isSome := by
  unfold erase order
  cases r.orders.lookup id <;> simp

theorem replace_accepts_iff {newId : OrderId} : (r.replace id newId price quantity).1 = true ↔
    (r.order id).isSome ∧ quantity ≠ 0 ∧ (newId = id ∨ r.order newId = none) := by
  cases hlook : r.orders.lookup id with
  | none =>
    unfold replace order
    rw [hlook]
    exact iff_of_false Bool.false_ne_true fun h => Bool.false_ne_true h.1
  | some order =>
    have hsome : (r.order id).isSome := by
      rw [order_eq hlook]
      rfl
    rw [← contains_eq_false]
    unfold replace
    rw [hlook]
    simp only [hsome, true_and]
    by_cases hzero : quantity = 0
    · rw [if_pos hzero]
      exact iff_of_false Bool.false_ne_true fun h => h.1 hzero
    rw [if_neg hzero]
    by_cases hsame : id = newId
    · rw [if_pos hsame]
      refine iff_of_true ?_ ⟨hzero, Or.inl hsame.symm⟩
      unfold modify
      rw [hlook]
      simp only
      rw [if_neg hzero]
      split_ifs <;> rfl
    rw [if_neg hsame]
    cases hcon : r.contains newId with
    | true =>
      refine iff_of_false Bool.false_ne_true ?_
      rintro ⟨_, hnew | hnew⟩
      · exact hsame hnew.symm
      · cases hnew
    | false =>
      have hadd : (r.add newId order.side price quantity).1 = true :=
        add_accepts_iff.mpr ⟨hzero, contains_eq_false.mp hcon⟩
      have hold : (r.add newId order.side price quantity).2.orders.lookup id = some order := by
        rw [(add_accepted hadd).2.2]
        exact (Finmap.lookup_insert_of_ne _ hsame).trans hlook
      rw [if_neg Bool.false_ne_true, erase_of_lookup hold]
      exact iff_of_true rfl ⟨hzero, Or.inr rfl⟩

theorem erase_refused (h : (r.erase id).1 = false) : (r.erase id).2 = r := by
  unfold erase at h ⊢
  cases hlook : r.orders.lookup id with
  | none => rfl
  | some order =>
    rw [hlook] at h
    cases h

theorem modify_refused (h : (r.modify id price quantity).1 = false) :
    (r.modify id price quantity).2 = r := by
  unfold modify at h ⊢
  cases hlook : r.orders.lookup id with
  | none => rfl
  | some order =>
    rw [hlook] at h
    simp only at h ⊢
    split_ifs at h ⊢
    rfl

theorem replace_refused {newId : OrderId} (h : (r.replace id newId price quantity).1 = false) :
    (r.replace id newId price quantity).2 = r := by
  have hnot := mt replace_accepts_iff.mpr (Bool.eq_false_iff.mp h)
  unfold replace at h ⊢
  cases hlook : r.orders.lookup id with
  | none => rfl
  | some order =>
    rw [order_eq hlook] at hnot
    rw [hlook] at h
    simp only at h ⊢
    split_ifs at h ⊢ with hzero hsame hcon
    · rfl
    · exact modify_refused h
    · rfl
    · rw [Bool.not_eq_true, contains_eq_false] at hcon
      exact absurd ⟨rfl, hzero, Or.inr hcon⟩ hnot

/-! ## The orders of the ids -/

theorem setOrder_order (order : ReferenceOrder) : (r.setOrder id order).order id' =
    if id' = id then some ⟨id, order.side, order.price, order.quantity⟩ else r.order id' := by
  show Option.map _ ((r.orders.insert id order).lookup id') = _
  rw [lookup_insert_ite]
  split_ifs with e
  · rw [e]
    rfl
  · rfl

theorem eraseOrder_order : (r.eraseOrder id).order id' = if id' = id then none else r.order id' := by
  show Option.map _ ((r.orders.erase id).lookup id') = _
  rw [lookup_erase_ite]
  split_ifs <;> rfl

theorem orderId_of_order {v : OrderView} (h : r.order id = some v) : v.orderId = id := by
  obtain ⟨order, _, rfl⟩ := Option.map_eq_some_iff.mp h
  rfl

theorem erase_order (hok : (r.erase id).1 = true) (id' : OrderId) :
    (r.erase id).2.order id' = if id' = id then none else r.order id' := by
  obtain ⟨order, hlook⟩ := erase_accepted hok
  rw [erase_of_lookup hlook]
  exact eraseOrder_order

/-- A reduction reduces its order. -/
theorem cancel_order (hok : (r.cancel id quantity).1 = true) (id' : OrderId) :
    (r.cancel id quantity).2.order id' = (r.order id').bind (OrderView.reduce id quantity) := by
  obtain ⟨order, hlook, _, _, hr⟩ := cancel_accepted hok
  have hview := order_eq hlook
  have hother : id' ≠ id → (r.order id').bind (OrderView.reduce id quantity) = r.order id' := by
    intro hne
    cases hv : r.order id' with
    | none => rfl
    | some v =>
      show OrderView.reduce id quantity v = some v
      unfold OrderView.reduce
      rw [orderId_of_order hv, if_neg hne]
  rw [hr]
  split_ifs with hfull
  · rw [erase_order (by rw [erase_of_lookup hlook])]
    split_ifs with e
    · rw [e, hview]
      show none = OrderView.reduce id quantity _
      unfold OrderView.reduce
      rw [if_pos rfl, if_pos hfull.symm]
    · exact (hother e).symm
  · rw [setOrder_order]
    split_ifs with e
    · rw [e, hview]
      show _ = OrderView.reduce id quantity _
      unfold OrderView.reduce
      rw [if_pos rfl, if_neg fun h => hfull h.symm]
    · exact (hother e).symm

/-- A replacement moves its order to the new id. -/
theorem replace_order {newId : OrderId} (hok : (r.replace id newId price quantity).1 = true) :
    ∃ v, r.order id = some v ∧ ∀ id', (r.replace id newId price quantity).2.order id' =
      if id' = newId then some ⟨newId, v.side, price, quantity⟩
      else if id' = id then none else r.order id' := by
  obtain ⟨order, hlook⟩ := replace_accepted hok
  refine ⟨_, order_eq hlook, fun id' => ?_⟩
  obtain ⟨hnew, hold⟩ := replace_orders hlook hok
  by_cases enew : id' = newId
  · rw [enew, hnew, if_pos rfl]
  rw [if_neg enew]
  by_cases hne : id = newId
  · subst hne
    rw [if_neg enew, replace_self hlook hok]
    split_ifs
    · rw [setOrder_order, if_neg enew]
    · exact (setOrder_order _).trans (if_neg enew)
  · by_cases eold : id' = id
    · rw [eold, hold hne, if_pos rfl]
    rw [if_neg eold, (replace_of_ne hlook hne hok).2, eraseOrder_order, if_neg eold]
    exact (setOrder_order _).trans (if_neg enew)

/-! ## The orders at a price -/

/-- An id without an order shows nothing. -/
theorem filterMap_without {ids : List OrderId} {f : OrderId → Option OrderView} (h : f id = none) :
    (without ids id).filterMap f = ids.filterMap f := by
  unfold without
  rw [List.filterMap_filter]
  refine List.filterMap_congr fun id' _ => ?_
  by_cases e : id' = id
  · rw [e, h]
    simp
  · simp [e]

/-- **An order is reduced in its place**, and removed where nothing is left of it. -/
theorem WF.cancel_views (h : r.WF) (hok : (r.cancel id quantity).1 = true) (side : Side)
    (price : Price) : (r.cancel id quantity).2.views side price =
      (r.views side price).filterMap (OrderView.reduce id quantity) := by
  obtain ⟨order, hlook, _, _, hr⟩ := cancel_accepted hok
  have hlevels : (r.cancel id quantity).2.views side price =
      (r.levels side price).filterMap (r.cancel id quantity).2.order := by
    unfold views
    by_cases hfull : quantity = order.quantity
    · have hnone : (r.cancel id quantity).2.order id = none := by
        rw [cancel_order hok, order_eq hlook]
        show OrderView.reduce id quantity _ = none
        unfold OrderView.reduce
        rw [if_pos rfl, if_pos hfull.symm]
      have hids : (r.cancel id quantity).2.levels side price = without (r.levels side price) id := by
        rw [hr, if_pos hfull, erase_of_lookup hlook]
        exact h.removeFromLevel_levels hlook side price
      rw [hids, filterMap_without hnone]
    · rw [hr, if_neg hfull]
      rfl
  rw [hlevels]
  unfold views
  rw [List.filterMap_filterMap]
  exact List.filterMap_congr fun id' _ => cancel_order hok id'

/-- An order is removed from its place. -/
theorem WF.erase_views (h : r.WF) (hok : (r.erase id).1 = true) (side : Side) (price : Price) :
    (r.erase id).2.views side price = (r.views side price).filter fun v => v.orderId ≠ id := by
  obtain ⟨order, hlook⟩ := erase_accepted hok
  have hnone : (r.erase id).2.order id = none := by
    rw [erase_order hok, if_pos rfl]
  have hlevels : (r.erase id).2.views side price =
      (r.levels side price).filterMap (r.erase id).2.order := by
    have hids : (r.erase id).2.levels side price = without (r.levels side price) id := by
      rw [erase_of_lookup hlook]
      exact h.removeFromLevel_levels hlook side price
    unfold views
    rw [hids, filterMap_without hnone]
  rw [hlevels]
  unfold views
  rw [List.filter_filterMap]
  refine List.filterMap_congr fun id' _ => ?_
  rw [erase_order hok]
  cases hv : r.order id' with
  | none => simp
  | some v =>
    obtain rfl := orderId_of_order hv
    by_cases e : v.orderId = id <;> simp [e, Option.filter]

/-! ## What a book is -/

variable {order : ReferenceOrder}

theorem WF.add (h : r.WF) (hok : (r.add id side price quantity).1 = true) :
    (r.add id side price quantity).2.WF := by
  obtain ⟨hquantity, hcon, hr⟩ := add_accepted hok
  have hnew := lookup_of_not_contains hcon
  rw [hr]
  refine ⟨fun side' price' id' hid' => ?_, fun id' order' hid' => ?_, fun side' price' => ?_⟩
  · rw [pushBack_levels, List.mem_append] at hid'
    show ∃ k, (r.orders.insert id _).lookup id' = _ ∧ _
    rcases hid' with hold | hjoined
    · obtain ⟨k, hlook, hk⟩ := h.queued _ _ _ hold
      refine ⟨k, ?_, hk⟩
      rw [Finmap.lookup_insert_of_ne, hlook]
      rintro rfl
      rw [hnew] at hlook
      cases hlook
    · split_ifs at hjoined with hplace
      · obtain rfl := List.mem_singleton.mp hjoined
        obtain ⟨rfl, rfl⟩ := hplace
        exact ⟨quantity, Finmap.lookup_insert _, hquantity⟩
      · cases hjoined
  · change (r.orders.insert id _).lookup id' = _ at hid'
    rw [lookup_insert_ite] at hid'
    rw [pushBack_levels, List.mem_append]
    split_ifs at hid' with heq
    · cases hid'
      exact Or.inr (by rw [if_pos ⟨rfl, rfl⟩, heq]; exact List.mem_singleton_self id)
    · exact Or.inl (h.resting _ _ hid')
  · rw [pushBack_levels]
    split_ifs
    · refine (h.nodup side' price').append (List.nodup_singleton id) fun id' hold hjoined => ?_
      obtain rfl := List.mem_singleton.mp hjoined
      obtain ⟨_, hlook, _⟩ := h.queued _ _ _ hold
      rw [hnew] at hlook
      cases hlook
    · rw [List.append_nil]
      exact h.nodup side' price'

theorem WF.lookup_iff (h : r.WF) : r.orders.lookup id = some order ↔
    ⟨id, order.side, order.price, order.quantity⟩ ∈ r.views order.side order.price := by
  constructor
  · intro hid
    exact List.mem_filterMap.mpr ⟨id, h.resting _ _ hid, order_eq hid⟩
  · intro hv
    exact (h.mem_views hv).2.2.2.2

/-- A book is what its levels show. -/
theorem WF.ext (h : r.WF) (h' : r'.WF)
    (hviews : ∀ side price, r'.views side price = r.views side price) : r' = r := by
  have horders : r'.orders = r.orders := by
    apply Finmap.ext_lookup
    intro id
    apply Option.ext
    intro order
    rw [h'.lookup_iff, h.lookup_iff, hviews]
  have hlevels : r'.levels = r.levels := by
    funext side price
    rw [← h'.map_views, hviews, h.map_views]
  obtain ⟨orders, levels⟩ := r
  obtain ⟨orders', levels'⟩ := r'
  obtain rfl : orders' = orders := horders
  obtain rfl : levels' = levels := hlevels
  rfl

end ReferenceBook

end Lob
