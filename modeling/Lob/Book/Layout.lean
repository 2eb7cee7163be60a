import Lob.Book.Cells

/-!
# The layout of a book

`Layout b q fl` says how the cells of `b` represent the queues `q`: for every side and price a list
of node addresses, oldest first. Inside an operation one node may be *floating*: in the order map,
but in no queue. A level may be present with an empty queue.

`Layout.edit` is the one rule for list operations: when a single queue changes and every node but
one keeps its data, it is enough to check that queue and that node.
-/

namespace Lob

open Basis

namespace OrderBook

def prevOf (b : OrderBook) (n : NodePtr) : Option NodePtr :=
  (b.nodes.lookup n).bind OrderNode.previous

def nextOf (b : OrderBook) (n : NodePtr) : Option NodePtr :=
  (b.nodes.lookup n).bind OrderNode.next

/-- The shares of a node, as a level counts them. -/
def shares (b : OrderBook) (n : NodePtr) : BitVec 64 :=
  ((b.nodes.lookup n).map fun o => o.quantity.setWidth 64).getD 0

/-- A level cell describes its queue. -/
structure Fits (b : OrderBook) (l : PriceLevel) (price : Price) (queue : List NodePtr) :
    Prop where
  price : l.price = price
  head : l.head = queue.head?
  tail : l.tail = queue.getLast?
  count : l.orderCount = queue.length
  quantity : l.quantity = (queue.map b.shares).sum

/-- A node in the queue of its side and price. -/
structure Resting (b : OrderBook) (side : Side) (price : Price) (n : NodePtr) (o : OrderNode) :
    Prop where
  node : b.nodes.lookup n = some o
  onSide : o.side = side
  atPrice : o.price = price
  positive : o.quantity ≠ 0
  level : o.level = (b.levels side).lookup price
  owner : b.orders.lookup o.id = some n

structure Layout (b : OrderBook) (q : Queues NodePtr) (floating : Option NodePtr) : Prop where
  cell : ∀ side price p, (b.levels side).lookup price = some p →
    ∃ l, b.cells.lookup p = some l ∧ b.Fits l price (q side price)
  listed : ∀ side price, q side price ≠ [] → ∃ p, (b.levels side).lookup price = some p
  apart : ∀ side price side' price' p, (b.levels side).lookup price = some p →
    (b.levels side').lookup price' = some p → side' = side ∧ price' = price
  node : ∀ side price, ∀ n ∈ q side price, ∃ o, b.Resting side price n o
  owned : ∀ id n, b.orders.lookup id = some n →
    ∃ o, b.nodes.lookup n = some o ∧ o.id = id ∧ (floating = some n ∨ n ∈ q o.side o.price)
  float : ∀ n, floating = some n → (∀ side price, n ∉ q side price) ∧
    ∃ o, b.nodes.lookup n = some o ∧ b.orders.lookup o.id = some n
  nodup : ∀ side price, (q side price).Nodup
  linked : ∀ side price, Linked b.prevOf b.nextOf (q side price)

section Layout

variable {b b' : OrderBook} {q : Queues NodePtr} {fl : Option NodePtr}

/-- A queued node is queued nowhere else. -/
theorem Layout.queue_unique (h : Layout b q fl) {side side' : Side} {price price' : Price}
    {n : NodePtr} (hn : n ∈ q side price) (hn' : n ∈ q side' price') :
    side' = side ∧ price' = price := by
  obtain ⟨o, r⟩ := h.node _ _ _ hn
  obtain ⟨o', r'⟩ := h.node _ _ _ hn'
  have e : o = o' := Option.some.inj (r.node.symm.trans r'.node)
  exact ⟨by rw [← r.onSide, ← r'.onSide, e], by rw [← r.atPrice, ← r'.atPrice, e]⟩

/-- The level of a nonempty queue. -/
theorem Layout.level_of_mem (h : Layout b q fl) {side : Side} {price : Price} {n : NodePtr}
    (hn : n ∈ q side price) : ∃ p l, (b.levels side).lookup price = some p ∧
      b.cells.lookup p = some l ∧ b.Fits l price (q side price) := by
  obtain ⟨p, hp⟩ := h.listed side price (List.ne_nil_of_mem hn)
  obtain ⟨l, hl, hf⟩ := h.cell side price p hp
  exact ⟨p, l, hp, hl, hf⟩

theorem Fits.congr {l : PriceLevel} {price : Price} {queue : List NodePtr}
    (h : b.Fits l price queue) (hs : ∀ n ∈ queue, b'.shares n = b.shares n) :
    b'.Fits l price queue where
  price := h.price
  head := h.head
  tail := h.tail
  count := h.count
  quantity := by rw [h.quantity, List.map_congr_left hs]

theorem shares_of_lookup {n : NodePtr} {o : OrderNode} (h : b.nodes.lookup n = some o) :
    b.shares n = o.quantity.setWidth 64 := by
  unfold shares; rw [h]; rfl

section Rewire

variable {g : NodePtr → OrderNode → OrderNode} {level : LevelPtr} {l' : PriceLevel}

theorem Rewires.prevOf (r : Rewires b b' g level l') {n : NodePtr} {o : OrderNode}
    (ho : b.nodes.lookup n = some o) : b'.prevOf n = (g n o).previous := by
  unfold OrderBook.prevOf; rw [r.lookup_node ho]; rfl

theorem Rewires.nextOf (r : Rewires b b' g level l') {n : NodePtr} {o : OrderNode}
    (ho : b.nodes.lookup n = some o) : b'.nextOf n = (g n o).next := by
  unfold OrderBook.nextOf; rw [r.lookup_node ho]; rfl

theorem prevOf_of_lookup {n : NodePtr} {o : OrderNode} (ho : b.nodes.lookup n = some o) :
    b.prevOf n = o.previous := by
  unfold OrderBook.prevOf; rw [ho]; rfl

theorem nextOf_of_lookup {n : NodePtr} {o : OrderNode} (ho : b.nodes.lookup n = some o) :
    b.nextOf n = o.next := by
  unfold OrderBook.nextOf; rw [ho]; rfl

/-- What the rewriting of nodes leaves alone: the data and level of every node but `order`, and the
links of every node outside the queue. -/
structure Local (g : NodePtr → OrderNode → OrderNode) (order : NodePtr) (queue : List NodePtr) :
    Prop where
  view : ∀ n o, n ≠ order → (g n o).view = o.view
  level : ∀ n o, n ≠ order → (g n o).level = o.level
  previous : ∀ n o, n ≠ order → n ∉ queue → (g n o).previous = o.previous
  next : ∀ n o, n ≠ order → n ∉ queue → (g n o).next = o.next

theorem Rewires.shares (r : Rewires b b' g level l') {order : NodePtr} {old : List NodePtr}
    (hg : Local g order old) {n : NodePtr} (hn : n ≠ order) : b'.shares n = b.shares n := by
  unfold OrderBook.shares
  rw [r.nodes, Option.map_map]
  congr 1
  cases hb : b.nodes.lookup n with
  | none => rfl
  | some o =>
    have := congrArg OrderView.quantity (hg.view n o hn)
    exact congrArg (fun k : Quantity => some (k.setWidth 64)) this

/-- A list operation: one queue becomes `queue`, every node but `order` keeps its data, and the new
queue is in order, with `order` at its place if it is in it. -/
structure Edit (b b' : OrderBook) (q : Queues NodePtr) (fl : Option NodePtr)
    (g : NodePtr → OrderNode → OrderNode) (level : LevelPtr) (l' : PriceLevel) (order : NodePtr)
    (side : Side) (price : Price) (queue : List NodePtr) (o : OrderNode) : Prop where
  rewires : Rewires b b' g level l'
  listed : (b.levels side).lookup price = some level
  floats : ∀ n, fl = some n → n = order
  nowhereElse : ∀ side' price', order ∈ q side' price' → side' = side ∧ price' = price
  keeps : Local g order (q side price)
  members : ∀ n, n ≠ order → (n ∈ queue ↔ n ∈ q side price)
  nodup : queue.Nodup
  linked : Linked b'.prevOf b'.nextOf queue
  fits : b'.Fits l' price queue
  found : b.nodes.lookup order = some o
  id : (g order o).id = o.id
  owner : b.orders.lookup o.id = some order
  rests : order ∈ queue → (g order o).side = side ∧ (g order o).price = price ∧
    (g order o).quantity ≠ 0 ∧ (g order o).level = some level

section Edit

variable {order : NodePtr} {side side' : Side} {price price' : Price} {queue : List NodePtr}
  {o : OrderNode} {n : NodePtr}

theorem Edit.mem_iff (e : Edit b b' q fl g level l' order side price queue o) (hn : n ≠ order) :
    n ∈ q.set side price queue side' price' ↔ n ∈ q side' price' := by
  by_cases hsame : side' = side ∧ price' = price
  · obtain ⟨rfl, rfl⟩ := hsame
    rw [Queues.set_self]
    exact e.members n hn
  · rw [Queues.set_of_ne hsame]

theorem Edit.elsewhere (h : Layout b q fl) (e : Edit b b' q fl g level l' order side price queue o)
    (hne : ¬(side' = side ∧ price' = price)) (hn : n ∈ q side' price') :
    n ≠ order ∧ n ∉ q side price := by
  refine ⟨?_, fun hn' => hne (h.queue_unique hn' hn)⟩
  rintro rfl
  exact hne (e.nowhereElse side' price' hn)

/-- The order is in no other queue afterwards. -/
theorem Edit.only_after (e : Edit b b' q fl g level l' order side price queue o)
    (hn : order ∈ q.set side price queue side' price') : side' = side ∧ price' = price := by
  by_contra hne
  rw [Queues.set_of_ne hne] at hn
  exact hne (e.nowhereElse _ _ hn)

theorem Edit.cell (h : Layout b q fl) (e : Edit b b' q fl g level l' order side price queue o)
    {p : LevelPtr} (hp : (b'.levels side').lookup price' = some p) :
    ∃ l, b'.cells.lookup p = some l ∧ b'.Fits l price' (q.set side price queue side' price') := by
  rw [e.rewires.levels] at hp
  by_cases hsame : side' = side ∧ price' = price
  · obtain ⟨rfl, rfl⟩ := hsame
    rw [e.listed] at hp
    cases hp
    rw [Queues.set_self]
    exact ⟨l', e.rewires.lookup_level, e.fits⟩
  · obtain ⟨l, hl, hf⟩ := h.cell side' price' p hp
    have hne : p ≠ level := by
      rintro rfl
      exact hsame (h.apart _ _ _ _ _ e.listed hp)
    refine ⟨l, by rw [e.rewires.cells, Finmap.lookup_insert_of_ne _ hne]; exact hl, ?_⟩
    rw [Queues.set_of_ne hsame]
    exact hf.congr fun n hn => e.rewires.shares e.keeps (e.elsewhere h hsame hn).1

theorem Edit.listed_after (h : Layout b q fl)
    (e : Edit b b' q fl g level l' order side price queue o)
    (hne : q.set side price queue side' price' ≠ []) :
    ∃ p, (b'.levels side').lookup price' = some p := by
  rw [e.rewires.levels]
  by_cases hsame : side' = side ∧ price' = price
  · obtain ⟨rfl, rfl⟩ := hsame
    exact ⟨level, e.listed⟩
  · rw [Queues.set_of_ne hsame] at hne
    exact h.listed side' price' hne

theorem Edit.node (h : Layout b q fl) (e : Edit b b' q fl g level l' order side price queue o)
    (hn : n ∈ q.set side price queue side' price') : ∃ o', b'.Resting side' price' n o' := by
  by_cases hno : n = order
  · subst hno
    obtain ⟨rfl, rfl⟩ := e.only_after hn
    rw [Queues.set_self] at hn
    obtain ⟨hside, hprice, hquantity, hlevel⟩ := e.rests hn
    refine ⟨_, e.rewires.lookup_node e.found, hside, hprice, hquantity, ?_, ?_⟩
    · rw [e.rewires.levels, e.listed, hlevel]
    · rw [e.rewires.orders, e.id, e.owner]
  · obtain ⟨o₁, ho₁⟩ := h.node side' price' n ((e.mem_iff hno).mp hn)
    have hv := e.keeps.view n o₁ hno
    refine ⟨_, e.rewires.lookup_node ho₁.node, ?_, ?_, ?_, ?_, ?_⟩
    · exact (congrArg OrderView.side hv).trans ho₁.onSide
    · exact (congrArg OrderView.price hv).trans ho₁.atPrice
    · rw [show (g n o₁).quantity = o₁.quantity from congrArg OrderView.quantity hv]
      exact ho₁.positive
    · rw [e.keeps.level n o₁ hno, e.rewires.levels, ho₁.level]
    · rw [e.rewires.orders, show (g n o₁).id = o₁.id from congrArg OrderView.orderId hv,
        ho₁.owner]

theorem Edit.owned (h : Layout b q fl) (e : Edit b b' q fl g level l' order side price queue o)
    {id : OrderId} (hid : b'.orders.lookup id = some n) :
    ∃ o', b'.nodes.lookup n = some o' ∧ o'.id = id ∧
      ((if order ∈ queue then none else some order) = some n ∨
        n ∈ q.set side price queue o'.side o'.price) := by
  rw [e.rewires.orders] at hid
  obtain ⟨o₁, ho₁, hid₁, hq⟩ := h.owned id n hid
  refine ⟨g n o₁, e.rewires.lookup_node ho₁, ?_⟩
  by_cases hno : n = order
  · subst hno
    obtain rfl : o = o₁ := Option.some.inj (e.found.symm.trans ho₁)
    refine ⟨e.id.trans hid₁, ?_⟩
    by_cases hin : n ∈ queue
    · obtain ⟨hside, hprice, -, -⟩ := e.rests hin
      rw [hside, hprice, Queues.set_self]
      exact Or.inr hin
    · exact Or.inl (if_neg hin)
  · have hv := e.keeps.view n o₁ hno
    have hside : (g n o₁).side = o₁.side := congrArg OrderView.side hv
    have hprice : (g n o₁).price = o₁.price := congrArg OrderView.price hv
    refine ⟨(congrArg OrderView.orderId hv).trans hid₁, Or.inr ?_⟩
    rw [e.mem_iff hno, hside, hprice]
    rcases hq with hf | hq
    · exact absurd (e.floats n hf) hno
    · exact hq

theorem Edit.float (e : Edit b b' q fl g level l' order side price queue o)
    (hn : (if order ∈ queue then none else some order) = some n) :
    (∀ side' price', n ∉ q.set side price queue side' price') ∧
      ∃ o', b'.nodes.lookup n = some o' ∧ b'.orders.lookup o'.id = some n := by
  by_cases hin : order ∈ queue
  · rw [if_pos hin] at hn
    cases hn
  · rw [if_neg hin] at hn
    cases hn
    refine ⟨fun side' price' hm => ?_, _, e.rewires.lookup_node e.found,
      by rw [e.rewires.orders, e.id, e.owner]⟩
    obtain ⟨rfl, rfl⟩ := e.only_after hm
    rw [Queues.set_self] at hm
    exact hin hm

theorem Edit.linked_after (h : Layout b q fl)
    (e : Edit b b' q fl g level l' order side price queue o) (side' : Side) (price' : Price) :
    Linked b'.prevOf b'.nextOf (q.set side price queue side' price') := by
  by_cases hsame : side' = side ∧ price' = price
  · obtain ⟨rfl, rfl⟩ := hsame
    rw [Queues.set_self]
    exact e.linked
  · rw [Queues.set_of_ne hsame]
    refine (h.linked _ _).congr ?_ ?_
    all_goals
      intro n hn
      obtain ⟨hno, hout⟩ := e.elsewhere h hsame hn
      obtain ⟨o₁, ho₁⟩ := h.node _ _ n hn
    · rw [e.rewires.prevOf ho₁.node, prevOf_of_lookup ho₁.node, e.keeps.previous n o₁ hno hout]
    · rw [e.rewires.nextOf ho₁.node, nextOf_of_lookup ho₁.node, e.keeps.next n o₁ hno hout]

/-- **The rule for list operations.** -/
theorem Layout.edit (h : Layout b q fl) (e : Edit b b' q fl g level l' order side price queue o) :
    Layout b' (q.set side price queue) (if order ∈ queue then none else some order) where
  cell _ _ _ := e.cell h
  listed _ _ := e.listed_after h
  apart side₁ price₁ side₂ price₂ p h₁ h₂ := by
    rw [e.rewires.levels] at h₁ h₂
    exact h.apart _ _ _ _ p h₁ h₂
  node _ _ _ := e.node h
  owned _ _ := e.owned h
  float _ := e.float
  nodup side' price' := by
    by_cases hsame : side' = side ∧ price' = price
    · obtain ⟨rfl, rfl⟩ := hsame
      rw [Queues.set_self]
      exact e.nodup
    · rw [Queues.set_of_ne hsame]
      exact h.nodup _ _
  linked := e.linked_after h

end Edit

end Rewire

end Layout

end OrderBook

end Lob
