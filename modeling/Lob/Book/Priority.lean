import Lob.Book.Reference

/-!
# Replacing an order

What an accepted `replace` does to every queue. The order moves to the tail of its new level, except
where `modify` leaves it in place: the same reference, the same price and no more shares.
-/

namespace Lob

open Basis

namespace ReferenceBook

/-- The replacement is an amendment in place. -/
def InPlace (order : ReferenceOrder) (oldId newId : OrderId) (newPrice : Price)
    (newQuantity : Quantity) : Prop :=
  oldId = newId ∧ newPrice = order.price ∧ newQuantity ≤ order.quantity

variable {r : ReferenceBook} {oldId newId : OrderId} {newPrice : Price} {newQuantity : Quantity}
  {order : ReferenceOrder} {side : Side} {price : Price}

/-- A queue without an id. -/
def without (ids : List OrderId) (id : OrderId) : List OrderId := ids.filter (· ≠ id)

theorem without_of_notMem {ids : List OrderId} {id : OrderId} (h : id ∉ ids) :
    without ids id = ids := by
  unfold without
  rw [List.filter_eq_self]
  intro id' hid'
  rw [decide_eq_true_iff]
  rintro rfl
  exact h hid'

theorem without_append (ids ids' : List OrderId) (id : OrderId) :
    without (ids ++ ids') id = without ids id ++ without ids' id :=
  List.filter_append ids ids'

theorem without_without (ids : List OrderId) (id : OrderId) :
    without (without ids id) id = without ids id := by
  unfold without
  rw [List.filter_filter]
  simp

/-- The queues after an order is removed. -/
theorem WF.removeFromLevel_levels (h : r.WF) (hid : r.orders.lookup oldId = some order)
    (side : Side) (price : Price) :
    (r.removeFromLevel oldId order).levels side price = without (r.levels side price) oldId := by
  show r.levels.set order.side order.price ((r.levels order.side order.price).erase oldId) side
    price = _
  by_cases e : side = order.side ∧ price = order.price
  · rw [e.1, e.2, Queues.set_self, (h.nodup _ _).erase_eq_filter]
    unfold without
    refine List.filter_congr fun id _ => ?_
    exact Bool.eq_iff_iff.mpr (by simp)
  · rw [Queues.set_of_ne e, without_of_notMem]
    intro hm
    obtain ⟨rfl, rfl⟩ := h.place_unique hid hm
    exact e ⟨rfl, rfl⟩

/-- The queues after an order joins at a tail. -/
theorem pushBack_levels (r : ReferenceBook) (id : OrderId) (side' : Side) (price' : Price) :
    (r.pushBack side' price' id).levels side price =
      r.levels side price ++ if side = side' ∧ price = price' then [id] else [] := by
  show r.levels.set side' price' (r.levels side' price' ++ [id]) side price = _
  split_ifs with e
  · rw [e.1, e.2, Queues.set_self]
  · rw [Queues.set_of_ne e, List.append_nil]

/-- An order leaves its queue, whatever joins behind. -/
theorem WF.pushBack_removeFromLevel (h : r.WF) (hid : r.orders.lookup oldId = some order)
    (side' : Side) (price' : Price) :
    ((r.pushBack side' price' newId).removeFromLevel oldId order).levels side price =
      without (r.levels side price) oldId ++
        if side = side' ∧ price = price' then [newId] else [] := by
  rw [← h.removeFromLevel_levels hid]
  have hmem := h.resting _ _ hid
  show (r.pushBack side' price' newId).levels.set order.side order.price
    (((r.pushBack side' price' newId).levels order.side order.price).erase oldId) side price =
    r.levels.set order.side order.price ((r.levels order.side order.price).erase oldId) side price
      ++ _
  by_cases e : side = order.side ∧ price = order.price
  · obtain ⟨rfl, rfl⟩ := e
    rw [Queues.set_self, Queues.set_self, pushBack_levels, List.erase_append_left _ hmem]
  · rw [Queues.set_of_ne e, Queues.set_of_ne e, pushBack_levels]

/-- A replacement under a new reference is a removal and an addition. -/
theorem replace_of_ne (hid : r.orders.lookup oldId = some order) (hne : oldId ≠ newId)
    (hok : (r.replace oldId newId newPrice newQuantity).1 = true) :
    r.orders.lookup newId = none ∧ (r.replace oldId newId newPrice newQuantity).2 =
      ((((r.setOrder newId ⟨order.side, newPrice, newQuantity⟩).pushBack order.side newPrice
        newId).removeFromLevel oldId order).eraseOrder oldId) := by
  unfold replace at hok ⊢
  rw [hid] at hok ⊢
  simp only [if_neg hne] at hok ⊢
  split_ifs at hok ⊢ with h0 hcon
  rw [Bool.not_eq_true] at hcon
  have hadd : (r.add newId order.side newPrice newQuantity).2 =
      (r.setOrder newId ⟨order.side, newPrice, newQuantity⟩).pushBack order.side newPrice newId := by
    unfold add
    rw [if_neg]
    rintro (hz | hc)
    · exact h0 hz
    · rw [hcon] at hc
      cases hc
  refine ⟨lookup_of_not_contains hcon, ?_⟩
  rw [hadd, erase_of_lookup]
  show (r.orders.insert newId _).lookup oldId = _
  rw [Finmap.lookup_insert_of_ne _ hne]
  exact hid

/-- A replacement under the same reference is a modification. -/
theorem replace_self (hid : r.orders.lookup oldId = some order)
    (hok : (r.replace oldId oldId newPrice newQuantity).1 = true) :
    (r.replace oldId oldId newPrice newQuantity).2 =
      if newPrice = order.price ∧ newQuantity ≤ order.quantity then
        r.setOrder oldId { order with quantity := newQuantity }
      else
        ((r.removeFromLevel oldId order).setOrder oldId
          ⟨order.side, newPrice, newQuantity⟩).pushBack order.side newPrice oldId := by
  unfold replace modify at hok ⊢
  rw [hid] at hok ⊢
  simp only [if_true] at hok ⊢
  split_ifs at hok ⊢ <;> rfl

/-- **An accepted replacement**, on every queue. -/
theorem WF.replace_levels (h : r.WF) (hid : r.orders.lookup oldId = some order)
    (hok : (r.replace oldId newId newPrice newQuantity).1 = true) (side : Side) (price : Price) :
    (¬InPlace order oldId newId newPrice newQuantity →
      (r.replace oldId newId newPrice newQuantity).2.levels side price =
        without (r.levels side price) oldId ++
          if side = order.side ∧ price = newPrice then [newId] else []) ∧
    (InPlace order oldId newId newPrice newQuantity →
      (r.replace oldId newId newPrice newQuantity).2.levels side price = r.levels side price) := by
  by_cases hne : oldId = newId
  swap
  · refine ⟨fun _ => ?_, fun hin => absurd hin.1 hne⟩
    obtain ⟨hnew, hr⟩ := replace_of_ne hid hne hok
    rw [hr]
    exact h.pushBack_removeFromLevel hid order.side newPrice
  subst hne
  rw [replace_self hid hok]
  by_cases hin : newPrice = order.price ∧ newQuantity ≤ order.quantity
  · rw [if_pos hin]
    exact ⟨fun hnot => absurd ⟨rfl, hin⟩ hnot, fun _ => rfl⟩
  · rw [if_neg hin]
    refine ⟨fun _ => ?_, fun hin' => absurd hin'.2 hin⟩
    show (((r.removeFromLevel oldId order).setOrder oldId _).pushBack order.side newPrice
      oldId).levels side price = _
    rw [pushBack_levels, ← h.removeFromLevel_levels hid]
    rfl

theorem replace_accepted (hok : (r.replace oldId newId newPrice newQuantity).1 = true) :
    ∃ order, r.orders.lookup oldId = some order := by
  unfold replace at hok
  cases hid : r.orders.lookup oldId with
  | none =>
    rw [hid] at hok
    cases hok
  | some order => exact ⟨order, rfl⟩

/-- The others keep their order where the replacement moves. -/
theorem WF.without_replaced (h : r.WF) (hid : r.orders.lookup oldId = some order)
    (hok : (r.replace oldId newId newPrice newQuantity).1 = true) (side : Side) (price : Price)
    (joined : Prop) [Decidable joined] :
    without (without (r.levels side price) oldId ++ if joined then [newId] else []) newId =
      without (r.levels side price) oldId := by
  have hrest : without (without (r.levels side price) oldId) newId =
      without (r.levels side price) oldId := by
    by_cases hne : oldId = newId
    · rw [hne, without_without]
    · refine without_of_notMem fun hm => ?_
      obtain ⟨_, hlook, _⟩ := h.queued _ _ _ (List.mem_of_mem_filter hm)
      rw [(replace_of_ne hid hne hok).1] at hlook
      cases hlook
  rw [without_append, hrest]
  split_ifs
  · simp [without]
  · exact List.append_nil _

/-- The orders of the references after an accepted replacement. -/
theorem replace_orders (hid : r.orders.lookup oldId = some order)
    (hok : (r.replace oldId newId newPrice newQuantity).1 = true) :
    (r.replace oldId newId newPrice newQuantity).2.order newId =
        some ⟨newId, order.side, newPrice, newQuantity⟩ ∧
      (oldId ≠ newId → (r.replace oldId newId newPrice newQuantity).2.order oldId = none) := by
  unfold ReferenceBook.order
  by_cases hne : oldId = newId
  swap
  · obtain ⟨_, hr⟩ := replace_of_ne hid hne hok
    rw [hr]
    refine ⟨?_, fun _ => ?_⟩
    · show Option.map _ (((r.orders.insert newId _).erase oldId).lookup newId) = _
      rw [Finmap.lookup_erase_ne fun e => hne e.symm, Finmap.lookup_insert]
      rfl
    · show Option.map _ (((r.orders.insert newId _).erase oldId).lookup oldId) = _
      rw [Finmap.lookup_erase]
      rfl
  subst hne
  refine ⟨?_, fun hne => absurd rfl hne⟩
  rw [replace_self hid hok]
  by_cases hin : newPrice = order.price ∧ newQuantity ≤ order.quantity
  · rw [if_pos hin]
    show Option.map _ ((r.orders.insert oldId _).lookup oldId) = _
    rw [Finmap.lookup_insert, hin.1]
    rfl
  · rw [if_neg hin]
    show Option.map _ ((r.orders.insert oldId _).lookup oldId) = _
    rw [Finmap.lookup_insert]
    rfl

end ReferenceBook

end Lob
