import Lob.Book.LayoutOps
import Lob.Book.PriceIndexOps

/-!
# What a book represents

`Represents b r`: the cells of `b` have a layout whose queues, read as ids, are those of the
reference book `r`, whose orders are those of `r`, and whose price indices hold the prices with a
resting order. Each part of an operation corresponds to one primitive change of `r`.
-/

namespace Lob

open Basis

def OrderNode.reference (o : OrderNode) : ReferenceOrder := ⟨o.side, o.price, o.quantity⟩

namespace OrderBook

variable {b b' : OrderBook} {q : Queues NodePtr} {r : ReferenceBook} {fl : Option NodePtr}
  {side : Side} {price : Price} {level : LevelPtr} {order : NodePtr} {o : OrderNode} {id : OrderId}

def idOf (b : OrderBook) (n : NodePtr) : OrderId := ((b.nodes.lookup n).map OrderNode.id).getD 0

def orderOf (b : OrderBook) (id : OrderId) : Option ReferenceOrder :=
  (b.orders.lookup id).bind fun n => (b.nodes.lookup n).map OrderNode.reference

structure Agrees (b : OrderBook) (q : Queues NodePtr) (r : ReferenceBook) : Prop where
  orders : ∀ id, r.orders.lookup id = b.orderOf id
  levels : r.levels = fun side price => (q side price).map b.idOf

structure Indexed (b : OrderBook) (q : Queues NodePtr) : Prop where
  wf : ∀ side, (b.indices side).WF
  active : ∀ side price, (b.indices side).Active price ↔ q side price ≠ []

def Represents (b : OrderBook) (r : ReferenceBook) : Prop :=
  ∃ q, Layout b q none ∧ Indexed b q ∧ Agrees b q r

/-- No level has an empty queue. -/
def Tight (b : OrderBook) (r : ReferenceBook) : Prop :=
  ∀ side price p, (b.levels side).lookup price = some p → r.levels side price ≠ []

theorem idOf_of_lookup (h : b.nodes.lookup order = some o) : b.idOf order = o.id := by
  unfold idOf; rw [h]; rfl

theorem orderOf_of_lookup (hid : b.orders.lookup id = some order)
    (ho : b.nodes.lookup order = some o) : b.orderOf id = some o.reference := by
  unfold orderOf; rw [hid, Option.bind_some, ho]; rfl

/-! ## Ids and nodes -/

/-- Each node is in the order map once. -/
theorem Layout.id_unique (h : Layout b q fl) {id' : OrderId} (hid : b.orders.lookup id = some order)
    (hid' : b.orders.lookup id' = some order) : id' = id := by
  obtain ⟨o₁, h₁, e₁, _⟩ := h.owned _ _ hid
  obtain ⟨o₂, h₂, e₂, _⟩ := h.owned _ _ hid'
  obtain rfl : o₁ = o₂ := Option.some.inj (h₁.symm.trans h₂)
  exact e₂.symm.trans e₁

theorem Layout.idOf_injOn (h : Layout b q fl) {n n' : NodePtr} (hn : n ∈ q side price)
    (hn' : n' ∈ q side price) (e : b.idOf n = b.idOf n') : n = n' := by
  obtain ⟨o, ro⟩ := h.node _ _ _ hn
  obtain ⟨o', ro'⟩ := h.node _ _ _ hn'
  rw [idOf_of_lookup ro.node, idOf_of_lookup ro'.node] at e
  have := ro.owner
  rw [e, ro'.owner] at this
  exact (Option.some.inj this).symm

/-- Erasing commutes with an injection on the list. -/
theorem map_erase_of_injOn {α β : Type} [DecidableEq α] [DecidableEq β] (f : α → β) {l : List α}
    {a : α} (h : ∀ x ∈ l, f x = f a → x = a) : (l.erase a).map f = (l.map f).erase (f a) := by
  induction l with
  | nil => rfl
  | cons x l ih =>
    have ih := ih fun y hy => h y (List.mem_cons_of_mem x hy)
    by_cases e : x = a
    · subst e; simp
    · have : f x ≠ f a := fun e' => e (h x (by simp) e')
      rw [List.erase_cons_tail (by simpa using e), List.map_cons, List.map_cons,
        List.erase_cons_tail (by simpa using this), ih]

/-! ## The parts of an operation on the reference book -/

theorem Agrees.congr (h : Agrees b q r) (hn : b'.nodes = b.nodes) (ho : b'.orders = b.orders) :
    Agrees b' q r where
  orders id := by rw [h.orders]; unfold orderOf; rw [hn, ho]
  levels := by rw [h.levels]; unfold idOf; rw [hn]

theorem Kept.idOf (k : Kept b b') : b'.idOf = b.idOf := by
  funext n
  have h := congrArg (Option.map OrderView.orderId) (k.view n)
  rw [Option.map_map, Option.map_map] at h
  exact congrArg (Option.getD · 0) h

theorem Kept.orderOf (k : Kept b b') : b'.orderOf = b.orderOf := by
  funext id
  unfold OrderBook.orderOf
  rw [k.orders]
  congr 1
  funext n
  have h := congrArg (Option.map fun v : OrderView => (⟨v.side, v.price, v.quantity⟩ : ReferenceOrder))
    (k.view n)
  rw [Option.map_map, Option.map_map] at h
  exact h

/-- A queue is replaced. -/
theorem Agrees.setQueue (h : Agrees b q r) (k : Kept b b') (side : Side) (price : Price)
    (queue : List NodePtr) :
    Agrees b' (q.set side price queue)
      { r with levels := r.levels.set side price (queue.map b.idOf) } where
  orders id := by rw [k.orderOf]; exact h.orders id
  levels := by rw [k.idOf, Queues.set_map, ← h.levels]

theorem Agrees.pushBack (h : Agrees b q r) (k : Kept b b') (side : Side) (price : Price)
    (ho : b.nodes.lookup order = some o) :
    Agrees b' (q.set side price (q side price ++ [order])) (r.pushBack side price o.id) := by
  have := h.setQueue k side price (q side price ++ [order])
  unfold ReferenceBook.pushBack
  rw [h.levels] at this ⊢
  simpa [idOf_of_lookup ho] using this

theorem Agrees.removeFromLevel (h : Agrees b q r) (hlay : Layout b q fl) (k : Kept b b')
    (ho : b.nodes.lookup order = some o) (hmem : order ∈ q o.side o.price) :
    Agrees b' (q.set o.side o.price ((q o.side o.price).erase order))
      (r.removeFromLevel o.id o.reference) := by
  have := h.setQueue k o.side o.price ((q o.side o.price).erase order)
  unfold ReferenceBook.removeFromLevel
  rw [map_erase_of_injOn b.idOf fun n hn e => hlay.idOf_injOn hn hmem e, idOf_of_lookup ho] at this
  rw [h.levels] at this ⊢
  exact this

/-- A node is stored under its id: a new one, or one in the place of the old. -/
theorem Agrees.setOrder (h : Agrees b q r) (hlay : Layout b q fl)
    (horders : ∀ id', b'.orders.lookup id' = if id' = id then some order else b.orders.lookup id')
    (hnodes : ∀ n, b'.nodes.lookup n = if n = order then some o else b.nodes.lookup n)
    (hid : o.id = id) (hold : b.orders.lookup id = some order ∨ b.nodes.lookup order = none) :
    Agrees b' q (r.setOrder id o.reference) where
  orders id' := by
    unfold ReferenceBook.setOrder orderOf
    rw [lookup_insert_ite, horders]
    split_ifs with e
    · rw [Option.bind_some, hnodes, if_pos rfl]; rfl
    · rw [h.orders]
      unfold orderOf
      refine Option.bind_congr fun n hn => ?_
      have hne : n ≠ order := by
        rintro rfl
        rcases hold with hold | hold
        · exact e (hlay.id_unique hold hn)
        · obtain ⟨_, hn', _⟩ := hlay.owned _ _ hn
          rw [hold] at hn'; cases hn'
      rw [hnodes, if_neg hne]
  levels := by
    show r.levels = _
    rw [h.levels]
    funext side price
    refine List.map_congr_left fun n hn => ?_
    obtain ⟨on, hon⟩ := hlay.lookup_of_mem hn
    by_cases e : n = order
    · subst e
      rcases hold with hold | hold
      · obtain ⟨o₁, h₁, e₁, _⟩ := hlay.owned _ _ hold
        rw [idOf_of_lookup h₁, e₁]
        unfold idOf
        rw [hnodes, if_pos rfl]
        exact hid.symm
      · rw [hold] at hon; cases hon
    · unfold idOf; rw [hnodes, if_neg e]

/-- The entry of the floating node is erased. -/
theorem Agrees.eraseOrder (h : Agrees b q r) (hlay : Layout b q (some order))
    (hid : b.orders.lookup id = some order) (horders : b'.orders = b.orders.erase id)
    (hnodes : ∀ n, n ≠ order → b'.nodes.lookup n = b.nodes.lookup n) :
    Agrees b' q (r.eraseOrder id) where
  orders id' := by
    unfold ReferenceBook.eraseOrder orderOf
    rw [horders, lookup_erase_ite, lookup_erase_ite]
    split_ifs with e
    · rfl
    · rw [h.orders]
      unfold orderOf
      refine Option.bind_congr fun n hn => ?_
      rw [hnodes]
      rintro rfl
      exact e (hlay.id_unique hid hn)
  levels := by
    show r.levels = _
    rw [h.levels]
    funext side price
    refine List.map_congr_left fun n hn => ?_
    have hne : n ≠ order := by
      rintro rfl
      exact (hlay.float n rfl).1 _ _ hn
    unfold idOf; rw [hnodes n hne]

/-! ## Reading the represented book -/

theorem Agrees.lookup_none (h : Agrees b q r) (hlay : Layout b q fl)
    (hr : r.orders.lookup id = none) : b.orders.lookup id = none := by
  rw [h.orders] at hr
  cases hid : b.orders.lookup id with
  | none => rfl
  | some n =>
    obtain ⟨o, ho, _⟩ := hlay.owned _ _ hid
    rw [orderOf_of_lookup hid ho] at hr
    cases hr

/-- The node of a represented order. -/
theorem Agrees.lookup_some (h : Agrees b q r) (hlay : Layout b q none) {ref : ReferenceOrder}
    (hr : r.orders.lookup id = some ref) : ∃ n o, b.orders.lookup id = some n ∧
      b.Resting o.side o.price n o ∧ n ∈ q o.side o.price ∧ o.id = id ∧ o.reference = ref := by
  rw [h.orders] at hr
  obtain ⟨n, hid, hn⟩ := Option.bind_eq_some_iff.mp hr
  obtain ⟨o, ho, e, hq⟩ := hlay.owned _ _ hid
  have hmem := hq.resolve_left (by simp)
  obtain ⟨o', ro⟩ := hlay.node _ _ _ hmem
  obtain rfl : o = o' := Option.some.inj (ho.symm.trans ro.node)
  rw [ho] at hn
  exact ⟨n, o, hid, ro, hmem, e, Option.some.inj hn⟩

theorem Agrees.contains (h : Agrees b q r) (hlay : Layout b q none) (id : OrderId) :
    b.contains id = r.contains id := by
  unfold OrderBook.contains ReferenceBook.contains
  cases hr : r.orders.lookup id with
  | none => rw [h.lookup_none hlay hr]; rfl
  | some ref =>
    obtain ⟨n, _, hn, _⟩ := h.lookup_some hlay hr
    rw [hn]; rfl

theorem Agrees.level_eq_nil (h : Agrees b q r) :
    r.levels side price = [] ↔ q side price = [] := by
  rw [h.levels]; exact List.map_eq_nil_iff

/-- Ids and queues of a represented book belong together. -/
theorem Agrees.wf (h : Agrees b q r) (hlay : Layout b q none) : r.WF where
  queued side price id hid := by
    rw [h.levels] at hid
    obtain ⟨n, hn, rfl⟩ := List.mem_map.mp hid
    obtain ⟨o, ro⟩ := hlay.node _ _ _ hn
    refine ⟨o.quantity, ?_, ro.positive⟩
    rw [idOf_of_lookup ro.node, h.orders, orderOf_of_lookup ro.owner ro.node, ← ro.onSide,
      ← ro.atPrice]
    rfl
  resting id ref hr := by
    obtain ⟨n, o, _, ro, hmem, rfl, rfl⟩ := h.lookup_some hlay hr
    rw [h.levels, ← idOf_of_lookup ro.node]
    exact List.mem_map_of_mem hmem
  nodup side price := by
    rw [h.levels]
    exact (hlay.nodup side price).map_on fun n hn n' hn' e => hlay.idOf_injOn hn hn' e

/-! ## The price indices -/

section Indices

variable {s : PriceIndex} {side' : Side} {price' : Price}

theorem update_wf (h : ∀ side, (b.indices side).WF) (hs : s.WF) (side' : Side) :
    (Function.update b.indices side s side').WF := by
  by_cases e : side' = side
  · subst e; rw [Function.update_self]; exact hs
  · rw [Function.update_of_ne e]; exact h side'

theorem update_active : (Function.update b.indices side s side').Active price' ↔
    if side' = side then s.Active price' else (b.indices side').Active price' := by
  by_cases e : side' = side
  · subst e; rw [Function.update_self, if_pos rfl]
  · rw [Function.update_of_ne e, if_neg e]

/-- An index gains its price, or an allocation fails and the prices stay. -/
theorem indexAdd_spec (al : Alloc) (side : Side) (price : Price)
    (h : ∀ side, (b.indices side).WF) :
    (∃ ix, (indexAdd al side price).run b = .ok () { b with indices := ix } ∧
        (∀ side, (ix side).WF) ∧ ∀ side' price', (ix side').Active price' ↔
          (side' = side ∧ price' = price) ∨ (b.indices side').Active price') ∨
      ∃ ix, (indexAdd al side price).run b = .error .badAlloc { b with indices := ix } ∧
        (∀ side, (ix side).WF) ∧ (∀ side' price', (ix side').Active price' ↔
          (b.indices side').Active price') ∧ ∃ site, al.fails site = true := by
  rcases PriceIndex.add_spec al price (h side) with ⟨s, run, wf, hs⟩ | ⟨s, run, wf, hs, hf⟩
  · refine Or.inl ⟨Function.update b.indices side s, zoom_ok run, update_wf h wf, ?_⟩
    intro side' price'
    rw [update_active, hs]
    split_ifs with e
    · rw [e]; simp
    · simp [e]
  · refine Or.inr ⟨Function.update b.indices side s, zoom_error run, update_wf h wf, ?_, hf⟩
    intro side' price'
    rw [update_active, hs]
    split_ifs with e
    · rw [e]
    · rfl

theorem indexRemove_ok (h : ∀ side, (b.indices side).WF) (hp : (b.indices side).Active price) :
    ∃ ix, (indexRemove side price).run b = .ok () { b with indices := ix } ∧
      (∀ side, (ix side).WF) ∧ ∀ side' price', (ix side').Active price' ↔
        (b.indices side').Active price' ∧ ¬(side' = side ∧ price' = price) := by
  obtain ⟨s, run, wf, hs⟩ := PriceIndex.remove_ok (h side) hp
  refine ⟨Function.update b.indices side s, ?_, update_wf h wf, ?_⟩
  · have read : (observe fun b : OrderBook => (b.indices side).remove price).run b = .ok s b :=
      observe_ok run
    unfold indexRemove
    rw [run_bind_ok read]
    rfl
  · intro side' price'
    rw [update_active, hs]
    split_ifs with e
    · rw [e]; simp
    · simp [e]

end Indices

end OrderBook

end Lob
