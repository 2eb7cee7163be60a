import Lob.Book.Effects

/-!
# Groups of orders

An operation on a book concerns the orders it names. What it returns, and what it makes of a group of
orders that has them, depends on that group only; a group that has none of them it leaves alone.
-/

namespace Lob

open Basis

namespace ReferenceBook

variable {p : OrderId → Bool} {r r' r'' : ReferenceBook} {id : OrderId} {order : ReferenceOrder}
  {side : Side} {price : Price}

/-- The books have the same of these orders, queued in the same order. -/
structure Agree (p : OrderId → Bool) (r r' : ReferenceBook) : Prop where
  lookup : ∀ id, p id = true → r'.orders.lookup id = r.orders.lookup id
  levels : ∀ side price, (r'.levels side price).filter p = (r.levels side price).filter p

theorem Agree.refl (p : OrderId → Bool) (r : ReferenceBook) : Agree p r r :=
  ⟨fun _ _ => rfl, fun _ _ => rfl⟩

theorem Agree.symm (h : Agree p r r') : Agree p r' r where
  lookup id hid := (h.lookup id hid).symm
  levels side price := (h.levels side price).symm

theorem Agree.trans (h : Agree p r r') (h' : Agree p r' r'') : Agree p r r'' where
  lookup id hid := (h'.lookup id hid).trans (h.lookup id hid)
  levels side price := (h'.levels side price).trans (h.levels side price)

theorem Agree.contains (h : Agree p r r') (hid : p id = true) : r'.contains id = r.contains id := by
  unfold ReferenceBook.contains
  rw [h.lookup id hid]

theorem Agree.setOrder (h : Agree p r r') (id : OrderId) (order : ReferenceOrder) :
    Agree p (r.setOrder id order) (r'.setOrder id order) where
  lookup id' hid' := by
    show (r'.orders.insert id order).lookup id' = (r.orders.insert id order).lookup id'
    rw [lookup_insert_ite, lookup_insert_ite, h.lookup id' hid']
  levels := h.levels

theorem Agree.eraseOrder (h : Agree p r r') (id : OrderId) :
    Agree p (r.eraseOrder id) (r'.eraseOrder id) where
  lookup id' hid' := by
    show (r'.orders.erase id).lookup id' = (r.orders.erase id).lookup id'
    rw [lookup_erase_ite, lookup_erase_ite, h.lookup id' hid']
  levels := h.levels

theorem Agree.pushBack (h : Agree p r r') (side : Side) (price : Price) (id : OrderId) :
    Agree p (r.pushBack side price id) (r'.pushBack side price id) where
  lookup := h.lookup
  levels side' price' := by
    rw [pushBack_levels, pushBack_levels, List.filter_append, List.filter_append, h.levels]

theorem removeFromLevel_filter (side' : Side) (price' : Price) :
    ((r.removeFromLevel id order).levels side' price').filter p =
      if side' = order.side ∧ price' = order.price then
        ((r.levels order.side order.price).filter p).erase id
      else (r.levels side' price').filter p := by
  show (r.levels.set order.side order.price _ side' price').filter p = _
  split_ifs with e
  · rw [e.1, e.2, Queues.set_self, List.erase_filter]
  · rw [Queues.set_of_ne e]

theorem Agree.removeFromLevel (h : Agree p r r') (id : OrderId) (order : ReferenceOrder) :
    Agree p (r.removeFromLevel id order) (r'.removeFromLevel id order) where
  lookup := h.lookup
  levels side' price' := by
    rw [removeFromLevel_filter, removeFromLevel_filter, h.levels, h.levels]

/-! ## Operations on the orders of a group -/

/-- The operations return the same, and leave books that agree. -/
def AgreeOn (p : OrderId → Bool) (operation : ReferenceBook → Bool × ReferenceBook) : Prop :=
  ∀ {r r'}, Agree p r r' →
    (operation r').1 = (operation r).1 ∧ Agree p (operation r).2 (operation r').2

theorem agreeOn_add (hid : p id = true) (side : Side) (price : Price) (quantity : Quantity) :
    AgreeOn p fun r => r.add id side price quantity := by
  intro r r' h
  unfold ReferenceBook.add
  simp only [h.contains hid]
  split_ifs
  · exact ⟨rfl, h⟩
  · exact ⟨rfl, (h.setOrder _ _).pushBack _ _ _⟩

theorem agreeOn_erase (hid : p id = true) : AgreeOn p fun r => r.erase id := by
  intro r r' h
  unfold ReferenceBook.erase
  simp only [h.lookup id hid]
  cases r.orders.lookup id with
  | none => exact ⟨rfl, h⟩
  | some order => exact ⟨rfl, (h.removeFromLevel _ _).eraseOrder _⟩

theorem agreeOn_cancel (hid : p id = true) (quantity : Quantity) :
    AgreeOn p fun r => r.cancel id quantity := by
  intro r r' h
  unfold ReferenceBook.cancel
  simp only [h.lookup id hid]
  cases r.orders.lookup id with
  | none => exact ⟨rfl, h⟩
  | some order =>
    simp only
    split_ifs
    · exact ⟨rfl, h⟩
    · exact agreeOn_erase hid h
    · exact ⟨rfl, h.setOrder _ _⟩

theorem agreeOn_modify (hid : p id = true) (price : Price) (quantity : Quantity) :
    AgreeOn p fun r => r.modify id price quantity := by
  intro r r' h
  unfold ReferenceBook.modify
  simp only [h.lookup id hid]
  cases r.orders.lookup id with
  | none => exact ⟨rfl, h⟩
  | some order =>
    simp only
    split_ifs
    · exact ⟨rfl, h⟩
    · exact ⟨rfl, h.setOrder _ _⟩
    · exact ⟨rfl, ((h.removeFromLevel _ _).setOrder _ _).pushBack _ _ _⟩

theorem agreeOn_replace {newId : OrderId} (hid : p id = true) (hnew : p newId = true) (price : Price)
    (quantity : Quantity) : AgreeOn p fun r => r.replace id newId price quantity := by
  intro r r' h
  unfold ReferenceBook.replace
  simp only [h.lookup id hid, h.contains hnew]
  cases r.orders.lookup id with
  | none => exact ⟨rfl, h⟩
  | some order =>
    simp only
    split_ifs
    · exact ⟨rfl, h⟩
    · exact agreeOn_modify hid _ _ h
    · exact ⟨rfl, h⟩
    · exact agreeOn_erase hid (agreeOn_add hnew _ _ _ h).2

/-! ## Operations on other orders -/

theorem agree_setOrder (hid : p id = false) : Agree p r (r.setOrder id order) where
  lookup id' hid' := by
    show (r.orders.insert id order).lookup id' = _
    rw [lookup_insert_ite, if_neg]
    rintro rfl
    exact Bool.false_ne_true (hid.symm.trans hid')
  levels _ _ := rfl

theorem agree_eraseOrder (hid : p id = false) : Agree p r (r.eraseOrder id) where
  lookup id' hid' := by
    show (r.orders.erase id).lookup id' = _
    rw [lookup_erase_ite, if_neg]
    rintro rfl
    exact Bool.false_ne_true (hid.symm.trans hid')
  levels _ _ := rfl

theorem agree_pushBack (hid : p id = false) : Agree p r (r.pushBack side price id) where
  lookup _ _ := rfl
  levels side' price' := by
    rw [pushBack_levels, List.filter_append]
    split_ifs
    · rw [List.filter_cons_of_neg (by rw [hid]; exact Bool.false_ne_true), List.filter_nil,
        List.append_nil]
    · rw [List.filter_nil, List.append_nil]

theorem agree_removeFromLevel (hid : p id = false) : Agree p r (r.removeFromLevel id order) where
  lookup _ _ := rfl
  levels side' price' := by
    rw [removeFromLevel_filter, List.erase_of_not_mem]
    · split_ifs with e
      · rw [e.1, e.2]
      · rfl
    · intro hmem
      exact Bool.false_ne_true (hid.symm.trans (List.mem_filter.mp hmem).2)

/-- The operation leaves these orders as they are. -/
def Spares (p : OrderId → Bool) (operation : ReferenceBook → Bool × ReferenceBook) : Prop :=
  ∀ r, Agree p r (operation r).2

theorem spares_add (hid : p id = false) (side : Side) (price : Price) (quantity : Quantity) :
    Spares p fun r => r.add id side price quantity := by
  intro r
  show Agree p r (r.add id side price quantity).2
  unfold ReferenceBook.add
  split_ifs
  · exact Agree.refl p r
  · exact (agree_setOrder hid).trans (agree_pushBack hid)

theorem spares_erase (hid : p id = false) : Spares p fun r => r.erase id := by
  intro r
  show Agree p r (r.erase id).2
  unfold ReferenceBook.erase
  cases r.orders.lookup id with
  | none => exact Agree.refl p r
  | some order => exact (agree_removeFromLevel hid).trans (agree_eraseOrder hid)

theorem spares_cancel (hid : p id = false) (quantity : Quantity) :
    Spares p fun r => r.cancel id quantity := by
  intro r
  show Agree p r (r.cancel id quantity).2
  unfold ReferenceBook.cancel
  cases r.orders.lookup id with
  | none => exact Agree.refl p r
  | some order =>
    simp only
    split_ifs
    · exact Agree.refl p r
    · exact spares_erase hid r
    · exact agree_setOrder hid

theorem spares_modify (hid : p id = false) (price : Price) (quantity : Quantity) :
    Spares p fun r => r.modify id price quantity := by
  intro r
  show Agree p r (r.modify id price quantity).2
  unfold ReferenceBook.modify
  cases r.orders.lookup id with
  | none => exact Agree.refl p r
  | some order =>
    simp only
    split_ifs
    · exact Agree.refl p r
    · exact agree_setOrder hid
    · exact ((agree_removeFromLevel hid).trans (agree_setOrder hid)).trans (agree_pushBack hid)

theorem spares_replace {newId : OrderId} (hid : p id = false) (hnew : p newId = false) (price : Price)
    (quantity : Quantity) : Spares p fun r => r.replace id newId price quantity := by
  intro r
  show Agree p r (r.replace id newId price quantity).2
  unfold ReferenceBook.replace
  cases r.orders.lookup id with
  | none => exact Agree.refl p r
  | some order =>
    simp only
    split_ifs
    · exact Agree.refl p r
    · exact spares_modify hid _ _ r
    · exact Agree.refl p r
    · exact (spares_add hnew _ _ _ r).trans (spares_erase hid _)

end ReferenceBook

end Lob
