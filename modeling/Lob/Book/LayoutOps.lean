import Lob.Book.Layout

/-!
# The parts of an operation, on a layout

Each lemma runs one part of an operation on a book with a layout and gives the layout afterwards:
appending the floating node, unlinking a queued one, creating and erasing a level, adding and
erasing a node, and changing a quantity in place.
-/

namespace Lob

open Basis

namespace OrderBook

variable {b : OrderBook} {q : Queues NodePtr} {fl : Option NodePtr} {side : Side} {price : Price}
  {level : LevelPtr} {order : NodePtr} {o : OrderNode}

/-- The result of a part that only rewires: the maps are the same and so is what nodes show. -/
structure Kept (b b' : OrderBook) : Prop where
  levels : b'.levels = b.levels
  indices : b'.indices = b.indices
  orders : b'.orders = b.orders
  view : ∀ n, (b'.nodes.lookup n).map OrderNode.view = (b.nodes.lookup n).map OrderNode.view

theorem Rewires.kept {b' : OrderBook} {g : NodePtr → OrderNode → OrderNode} {l' : PriceLevel}
    (r : Rewires b b' g level l') (hg : ∀ n o, (g n o).view = o.view) : Kept b b' where
  levels := r.levels
  indices := r.indices
  orders := r.orders
  view n := by
    rw [r.nodes, Option.map_map]
    congr 1
    exact funext (hg n)

theorem Layout.lookup_of_mem (h : Layout b q fl) {n : NodePtr} (hn : n ∈ q side price) :
    ∃ o, b.nodes.lookup n = some o :=
  (h.node side price n hn).imp fun _ r => r.node

/-! ## Appending -/

theorem appended_local (level : LevelPtr) (order : NodePtr) (queue : List NodePtr) :
    Local (appended level order queue.getLast?) order queue where
  view _ _ _ := rfl
  level n o h := by simp [appended, h]
  previous n o h _ := by simp [appended, h]
  next n o h hn := by
    have : queue.getLast? ≠ some n := fun e => hn (List.mem_of_getLast? e)
    simp [appended, h, this]

/-- **Appending** the floating node to its queue. -/
theorem Layout.append_ok (h : Layout b q (some order))
    (hlev : (b.levels side).lookup price = some level) (ho : b.nodes.lookup order = some o)
    (hside : o.side = side) (hprice : o.price = price) (hq : o.quantity ≠ 0) :
    ∃ b', (append level order).run b = .ok () b' ∧ Kept b b' ∧
      Layout b' (q.set side price (q side price ++ [order])) none := by
  obtain ⟨l, hl, hfits⟩ := h.cell side price level hlev
  obtain ⟨hnot, o₁, ho₁, howner⟩ := h.float order rfl
  obtain rfl : o = o₁ := Option.some.inj (ho.symm.trans ho₁)
  obtain ⟨b', run, r⟩ := append_run hl ho fun t ht =>
    h.lookup_of_mem (List.mem_of_getLast? (hfits.tail ▸ ht))
  rw [hfits.tail] at r
  have hloc := appended_local level order (q side price)
  have hnodup : (q side price ++ [order]).Nodup := by
    rw [List.nodup_append]
    exact ⟨h.nodup _ _, by simp, fun x hx y hy e => by simp at hy; exact hnot _ _ (hy ▸ e ▸ hx)⟩
  refine ⟨b', run, r.kept fun _ _ => rfl, ?_⟩
  have hlast : (q side price).getLast? ≠ some order :=
    fun e => hnot side price (List.mem_of_getLast? e)
  have hne : ∀ {n}, n ∈ q side price → n ≠ order := fun hn e => hnot side price (e ▸ hn)
  have := h.edit
    { rewires := r
      listed := hlev
      floats := by simp
      nowhereElse := fun side' price' hm => absurd hm (hnot side' price')
      keeps := hloc
      members := fun n hn => by simp [hn]
      nodup := hnodup
      linked := ?linked
      fits := ?fits
      found := ho
      id := rfl
      owner := howner
      rests := fun _ => ⟨hside, hprice, hq, by simp [appended]⟩ }
  · simpa using this
  case linked =>
    refine (h.linked side price).concat (h.nodup _ _) ?_ ?_ ?_ ?_
    · intro y hy
      obtain ⟨oy, hoy⟩ := h.lookup_of_mem hy
      rw [r.prevOf hoy, prevOf_of_lookup hoy]
      simp [appended, hne hy]
    · intro y hy
      obtain ⟨oy, hoy⟩ := h.lookup_of_mem hy
      rw [r.nextOf hoy, nextOf_of_lookup hoy]
      simp [appended, hne hy]
    · rw [r.prevOf ho]; simp [appended]
    · rw [r.nextOf ho]; simp [appended, hlast]
  case fits =>
    have hs : ∀ n ∈ q side price, b'.shares n = b.shares n :=
      fun n hn => r.shares hloc (hne hn)
    have hso : b'.shares order = o.quantity.setWidth 64 := by
      rw [shares_of_lookup (r.lookup_node ho)]; rfl
    refine ⟨hfits.price, ?_, by simp, by simp [hfits.count], ?_⟩
    · simp only [hfits.head]
      cases q side price <;> simp
    · simp [List.map_append, List.map_congr_left hs, hso, hfits.quantity]

/-! ## Unlinking -/

theorem unlinked_local {before after : List NodePtr} :
    Local (unlinked order before.getLast? after.head?) order (before ++ order :: after) where
  view _ _ _ := rfl
  level n o h := by simp [unlinked, h]
  previous n o h hn := by
    have : after.head? ≠ some n := fun e => hn (by simp [List.mem_of_head? e])
    simp [unlinked, h, this]
  next n o h hn := by
    have : before.getLast? ≠ some n := fun e => hn (by simp [List.mem_of_getLast? e])
    simp [unlinked, h, this]

/-- The links of a queued node. -/
theorem Layout.links_eq (h : Layout b q none) {before after : List NodePtr}
    (hsplit : q side price = before ++ order :: after) (ho : b.nodes.lookup order = some o) :
    o.previous = before.getLast? ∧ o.next = after.head? := by
  obtain ⟨hprev, hnext⟩ := h.linked side price before order after hsplit
  rw [prevOf_of_lookup ho] at hprev
  rw [nextOf_of_lookup ho] at hnext
  exact ⟨hprev, hnext⟩

/-- The neighbours of a queued node are nodes. -/
theorem Layout.neighbours (h : Layout b q none) (hmem : order ∈ q side price)
    (ho : b.nodes.lookup order = some o) :
    (∀ p, o.previous = some p → p ≠ order ∧ ∃ op, b.nodes.lookup p = some op) ∧
      ∀ n, o.next = some n → ∃ on, b.nodes.lookup n = some on := by
  obtain ⟨before, after, hsplit⟩ := List.append_of_mem hmem
  have hnd := h.nodup side price
  rw [hsplit] at hnd
  obtain ⟨hprev, hnext⟩ := h.links_eq hsplit ho
  refine ⟨fun p e => ?_, fun n e => ?_⟩
  · have hp := List.mem_of_getLast? (hprev ▸ e)
    refine ⟨?_, h.lookup_of_mem (by rw [hsplit]; simp [hp])⟩
    rintro rfl
    exact (List.nodup_append.mp hnd).2.2 _ hp _ List.mem_cons_self rfl
  · have hn := List.mem_of_head? (hnext ▸ e)
    exact h.lookup_of_mem (by rw [hsplit]; simp [hn])

/-- **Unlinking** a queued node, which then floats. -/
theorem Layout.unlink_ok (h : Layout b q none) (hmem : order ∈ q side price)
    (hlev : (b.levels side).lookup price = some level) (ho : b.nodes.lookup order = some o) :
    ∃ b', (modifyLevel level (fun l => { l with
        quantity := l.quantity - o.quantity.setWidth 64 }) >>= fun _ =>
          detach level order).run b = .ok () b' ∧ Kept b b' ∧
      Layout b' (q.set side price ((q side price).erase order)) (some order) := by
  obtain ⟨l, hl, hfits⟩ := h.cell side price level hlev
  obtain ⟨before, after, hsplit⟩ := List.append_of_mem hmem
  have hnd := h.nodup side price
  rw [hsplit] at hnd
  have hnb : order ∉ before := fun e => (List.nodup_append.mp hnd).2.2 _ e _ (by simp) rfl
  have hna : order ∉ after := (List.nodup_cons.mp (List.nodup_append.mp hnd).2.1).1
  have herase : (q side price).erase order = before ++ after := by
    rw [hsplit, List.erase_append_right _ hnb, List.erase_cons_head]
  obtain ⟨hprev, hnext⟩ := h.links_eq hsplit ho
  have hbefore : ∀ n ∈ before, n ∈ q side price := fun n hn => by rw [hsplit]; simp [hn]
  have hafter : ∀ n ∈ after, n ∈ q side price := fun n hn => by rw [hsplit]; simp [hn]
  obtain ⟨hprevious, hfollowing⟩ := h.neighbours hmem ho
  obtain ⟨b', run, r⟩ := unlink_run (k := o.quantity.setWidth 64) hl ho hprevious hfollowing
  rw [hprev, hnext] at r
  have hloc : Local _ order (q side price) := hsplit ▸ unlinked_local
  have hne : ∀ {n}, n ∈ before ++ after → n ≠ order := by
    rintro n hn rfl
    rcases List.mem_append.mp hn with hn | hn
    · exact hnb hn
    · exact hna hn
  have hin : ∀ {n}, n ∈ before ++ after → n ∈ q side price := fun hn =>
    (List.mem_append.mp hn).elim (hbefore _) (hafter _)
  obtain ⟨o₁, ho₁⟩ := h.node side price order hmem
  obtain rfl : o = o₁ := Option.some.inj (ho.symm.trans ho₁.node)
  refine ⟨b', run, r.kept fun _ _ => rfl, ?_⟩
  rw [herase]
  have hout : order ∉ before ++ after := by simp [hnb, hna]
  have := h.edit
    { rewires := r
      listed := hlev
      floats := by simp
      nowhereElse := fun side' price' hm => h.queue_unique hmem hm
      keeps := hloc
      members := fun n hn => by rw [hsplit]; simp [hn]
      nodup := hnd.sublist (by simp)
      linked := ?linked
      fits := ?fits
      found := ho
      id := rfl
      owner := ho₁.owner
      rests := fun hm => absurd hm hout }
  · simpa [hnb, hna] using this
  case linked =>
    refine (hsplit ▸ h.linked side price).unlink hnd ?_ ?_
    all_goals
      intro y hy
      obtain ⟨oy, hoy⟩ := h.lookup_of_mem (hin hy)
    · rw [r.prevOf hoy, prevOf_of_lookup hoy]
      simp [unlinked, hne hy]
    · rw [r.nextOf hoy, nextOf_of_lookup hoy]
      simp [unlinked, hne hy]
  case fits =>
    have hs : ∀ n ∈ before ++ after, b'.shares n = b.shares n :=
      fun n hn => r.shares hloc (hne hn)
    refine ⟨hfits.price, ?_, ?_, ?_, ?_⟩
    · simp only [hfits.head, hsplit]
      cases before <;> simp
    · simp only [hfits.tail, hsplit]
      cases after with
      | nil => simp
      | cons w rest => simp [List.getLast?_cons]
    · rw [hfits.count, hsplit]
      simp
    · rw [hfits.quantity, List.map_congr_left hs, hsplit]
      simp only [List.map_append, List.map_cons, List.sum_append, List.sum_cons,
        shares_of_lookup ho]
      rw [BitVec.add_comm (o.quantity.setWidth 64), ← BitVec.add_assoc, BitVec.add_sub_cancel]

/-! ## Changing a quantity in place -/

/-- Widening commutes with a subtraction that does not wrap. -/
theorem setWidth_sub {k n : Quantity} (h : k ≤ n) :
    (n - k).setWidth 64 = n.setWidth 64 - k.setWidth 64 := by
  have hk : k.toNat ≤ n.toNat := h
  apply BitVec.eq_of_toNat_eq
  rw [BitVec.toNat_setWidth, BitVec.toNat_sub, BitVec.toNat_sub, BitVec.toNat_setWidth,
    BitVec.toNat_setWidth]
  have := n.isLt
  have := k.isLt
  omega

/-- The rewriting that gives one node a new quantity. -/
def resized (order : NodePtr) (k : Quantity) (n : NodePtr) (o : OrderNode) : OrderNode :=
  if n = order then { o with quantity := k } else o

theorem resized_local (order : NodePtr) (k : Quantity) (queue : List NodePtr) :
    Local (resized order k) order queue where
  view n o h := by simp [resized, h]
  level n o h := by simp [resized, h]
  previous n o h _ := by simp [resized, h]
  next n o h _ := by simp [resized, h]

theorem resized_links (k : Quantity) (n : NodePtr) (o : OrderNode) :
    (resized order k n o).previous = o.previous ∧ (resized order k n o).next = o.next := by
  unfold resized; split_ifs <;> exact ⟨rfl, rfl⟩

/-- **A reduction in place** keeps every queue. -/
theorem Layout.resize (h : Layout b q none) {b' : OrderBook} {l : PriceLevel} {k : Quantity}
    (hmem : order ∈ q side price) (hlev : (b.levels side).lookup price = some level)
    (hl : b.cells.lookup level = some l) (ho : b.nodes.lookup order = some o)
    (r : Rewires b b' (resized order k) level
      { l with quantity := l.quantity - (o.quantity - k).setWidth 64 })
    (hk : k ≤ o.quantity) (hk0 : k ≠ 0) : Layout b' q none := by
  obtain ⟨l₁, hl₁, hfits⟩ := h.cell side price level hlev
  obtain rfl : l = l₁ := Option.some.inj (hl.symm.trans hl₁)
  obtain ⟨o₁, ho₁⟩ := h.node side price order hmem
  obtain rfl : o = o₁ := Option.some.inj (ho.symm.trans ho₁.node)
  have hloc := resized_local order k (q side price)
  have hid : (resized order k order o).id = o.id := by simp [resized]
  have := h.edit
    { rewires := r
      listed := hlev
      floats := by simp
      nowhereElse := fun side' price' hm => h.queue_unique hmem hm
      keeps := hloc
      members := fun _ _ => Iff.rfl
      nodup := h.nodup _ _
      linked := ?linked
      fits := ?fits
      found := ho
      id := hid
      owner := ho₁.owner
      rests := fun _ => by
        simpa [resized, ho₁.onSide, ho₁.atPrice, ho₁.level, hlev] using hk0 }
  · simpa [hmem, Queues.set_same] using this
  case linked =>
    refine (h.linked side price).congr ?_ ?_
    all_goals
      intro n hn
      obtain ⟨on, hon⟩ := h.node side price n hn
    · rw [r.prevOf hon.node, prevOf_of_lookup hon.node, (resized_links k n on).1]
    · rw [r.nextOf hon.node, nextOf_of_lookup hon.node, (resized_links k n on).2]
  case fits =>
    refine ⟨hfits.price, hfits.head, hfits.tail, hfits.count, ?_⟩
    obtain ⟨before, after, hsplit⟩ := List.append_of_mem hmem
    have hnd := h.nodup side price
    rw [hsplit] at hnd
    have hs : ∀ n, n ≠ order → b'.shares n = b.shares n := fun n hn => r.shares hloc hn
    have hb : ∀ n ∈ before, b'.shares n = b.shares n := fun n hn => hs n fun e =>
      (List.nodup_append.mp hnd).2.2 _ hn _ (by simp [e]) rfl
    have ha : ∀ n ∈ after, b'.shares n = b.shares n := fun n hn => hs n fun e =>
      (List.nodup_cons.mp (List.nodup_append.mp hnd).2.1).1 (e ▸ hn)
    have hso : b'.shares order = k.setWidth 64 := by
      rw [shares_of_lookup (r.lookup_node ho)]; simp [resized]
    simp only [hfits.quantity, hsplit, List.map_append, List.map_cons, List.sum_append,
      List.sum_cons, List.map_congr_left hb, List.map_congr_left ha, hso, shares_of_lookup ho,
      setWidth_sub hk]
    generalize (before.map b.shares).sum = x
    generalize (after.map b.shares).sum = y
    generalize o.quantity.setWidth 64 = m
    generalize k.setWidth 64 = j
    grind

/-! ## Levels -/

theorem shares_congr {b' : OrderBook} (h : b'.nodes = b.nodes) : b'.shares = b.shares := by
  unfold shares; rw [h]

theorem prevOf_congr {b' : OrderBook} (h : b'.nodes = b.nodes) : b'.prevOf = b.prevOf := by
  unfold prevOf; rw [h]

theorem nextOf_congr {b' : OrderBook} (h : b'.nodes = b.nodes) : b'.nextOf = b.nextOf := by
  unfold nextOf; rw [h]

/-- A change of levels without queues. -/
theorem Layout.relevel (h : Layout b q fl) {b' : OrderBook} (hnodes : b'.nodes = b.nodes)
    (horders : b'.orders = b.orders)
    (hcell : ∀ side price p, (b'.levels side).lookup price = some p →
      ∃ l, b'.cells.lookup p = some l ∧ b.Fits l price (q side price))
    (hkeep : ∀ side price, q side price ≠ [] →
      (b'.levels side).lookup price = (b.levels side).lookup price)
    (hapart : ∀ side price side' price' p, (b'.levels side).lookup price = some p →
      (b'.levels side').lookup price' = some p → side' = side ∧ price' = price) :
    Layout b' q fl where
  cell side price p hp := by
    obtain ⟨l, hl, hf⟩ := hcell side price p hp
    exact ⟨l, hl, hf.congr fun n _ => by rw [shares_congr hnodes]⟩
  listed side price hne := by rw [hkeep side price hne]; exact h.listed side price hne
  apart := hapart
  node side price n hn := by
    obtain ⟨o, r⟩ := h.node side price n hn
    refine ⟨o, by rw [hnodes]; exact r.node, r.onSide, r.atPrice, r.positive, ?_, ?_⟩
    · rw [hkeep side price (List.ne_nil_of_mem hn)]; exact r.level
    · rw [horders]; exact r.owner
  owned id n hn := by rw [horders] at hn; rw [hnodes]; exact h.owned id n hn
  float n hn := by rw [hnodes, horders]; exact h.float n hn
  nodup := h.nodup
  linked side price := by
    rw [prevOf_congr hnodes, nextOf_congr hnodes]; exact h.linked side price

/-- The book has a level at `side` and `price`; nothing else differs. -/
structure Grown (b b' : OrderBook) (side : Side) (price : Price) (level : LevelPtr) : Prop where
  nodes : b'.nodes = b.nodes
  orders : b'.orders = b.orders
  indices : b'.indices = b.indices
  found : (b'.levels side).lookup price = some level
  others : ∀ side' price', ¬(side' = side ∧ price' = price) →
    (b'.levels side').lookup price' = (b.levels side').lookup price'
  present : ∀ p, (b.levels side).lookup price = some p → p = level

theorem update_levels {levels : Side → Map Price LevelPtr} {m : Map Price LevelPtr}
    (side' : Side) (price' : Price) :
    (Function.update levels side m side').lookup price' =
      if side' = side then m.lookup price' else (levels side').lookup price' := by
  by_cases e : side' = side
  · subst e; simp
  · simp [e]

/-- A new level with an empty queue, at an address no level has. -/
theorem Layout.grow (h : Layout b q fl) (hp : (b.levels side).lookup price = none)
    (hfresh : level ∉ b.cells.keys) :
    let b' := { b with
      cells := b.cells.insert level ⟨price, 0, 0, none, none⟩
      levels := Function.update b.levels side ((b.levels side).insert price level) }
    Layout b' q fl ∧ Grown b b' side price level := by
  intro b'
  have hqueue : q side price = [] := by
    by_contra hne
    obtain ⟨p, hp'⟩ := h.listed side price hne
    rw [hp] at hp'; cases hp'
  have hold : ∀ side' price' p, (b.levels side').lookup price' = some p → p ≠ level := by
    rintro side' price' p hp' rfl
    obtain ⟨l, hl, _⟩ := h.cell _ _ _ hp'
    exact hfresh (Finmap.mem_keys.mpr (Finmap.mem_of_lookup_eq_some hl))
  have hfound : (b'.levels side).lookup price = some level := by
    simp only [b', update_levels, if_true, Finmap.lookup_insert]
  have hothers : ∀ side' price', ¬(side' = side ∧ price' = price) →
      (b'.levels side').lookup price' = (b.levels side').lookup price' := by
    intro side' price' e
    simp only [b', update_levels, lookup_insert_ite]
    split_ifs with e1 e2
    · exact absurd ⟨e1, e2⟩ e
    · rw [e1]
    · rfl
  refine ⟨h.relevel rfl rfl ?cell ?keep ?apart, rfl, rfl, rfl, hfound, hothers,
    fun p e => by simp [hp] at e⟩
  case cell =>
    intro side' price' p hp'
    by_cases e : side' = side ∧ price' = price
    · obtain ⟨rfl, rfl⟩ := e
      obtain rfl : level = p := Option.some.inj (hfound.symm.trans hp')
      exact ⟨_, Finmap.lookup_insert _, by rw [hqueue]; exact ⟨rfl, rfl, rfl, rfl, rfl⟩⟩
    · rw [hothers _ _ e] at hp'
      obtain ⟨l, hl, hf⟩ := h.cell _ _ _ hp'
      exact ⟨l, by rw [Finmap.lookup_insert_of_ne _ (hold _ _ _ hp')]; exact hl, hf⟩
  case keep =>
    intro side' price' hne
    refine hothers _ _ fun e => hne ?_
    obtain ⟨rfl, rfl⟩ := e
    exact hqueue
  case apart =>
    intro side₁ price₁ side₂ price₂ p h₁ h₂
    by_cases e₁ : side₁ = side ∧ price₁ = price <;> by_cases e₂ : side₂ = side ∧ price₂ = price
    · exact ⟨e₂.1.trans e₁.1.symm, e₂.2.trans e₁.2.symm⟩
    · rw [hothers _ _ e₂] at h₂
      rw [e₁.1, e₁.2, hfound] at h₁
      exact absurd (Option.some.inj h₁).symm (hold _ _ _ h₂)
    · rw [hothers _ _ e₁] at h₁
      rw [e₂.1, e₂.2, hfound] at h₂
      exact absurd (Option.some.inj h₂).symm (hold _ _ _ h₁)
    · rw [hothers _ _ e₁] at h₁
      rw [hothers _ _ e₂] at h₂
      exact h.apart _ _ _ _ _ h₁ h₂

/-- **`get_or_create_level`.** Only its two allocations can fail, and then nothing has changed. -/
theorem Layout.getOrCreateLevel_spec (al : Alloc) (side : Side) (price : Price)
    (h : Layout b q fl) :
    (∃ b' p, (getOrCreateLevel al side price).run b = .ok p b' ∧ Layout b' q fl ∧
        Grown b b' side price p) ∨
      (getOrCreateLevel al side price).run b = .error .badAlloc b ∧
        ∃ site, al.fails site = true := by
  cases hp : (b.levels side).lookup price with
  | some p =>
    refine Or.inl ⟨b, p, ?_, h, rfl, rfl, rfl, hp, fun _ _ _ => rfl, fun p' e => ?_⟩
    · unfold getOrCreateLevel
      rw [EStateM.run_bind]
      simp [hp]
    · rw [hp] at e; exact (Option.some.inj e).symm
  | none =>
    have hrun : (getOrCreateLevel al side price).run b =
        (al.request .priceLevel >>= fun _ => al.request .levelMapNode >>= fun _ => do
          let level := al.place.pick (← get).cells.keys
          modifyGet fun b => ((), { b with
            cells := b.cells.insert level ⟨price, 0, 0, none, none⟩
            levels := Function.update b.levels side ((b.levels side).insert price level) })
          return level : Book LevelPtr).run b := by
      unfold getOrCreateLevel
      rw [EStateM.run_bind]
      simp only [EStateM.run_get, hp]
      rfl
    rw [hrun]
    by_cases h1 : al.fails .priceLevel = true
    · exact Or.inr ⟨run_bind_error (Alloc.request_error h1 b), _, h1⟩
    rw [run_bind_ok (Alloc.request_ok (Bool.eq_false_iff.mpr h1) b)]
    by_cases h2 : al.fails .levelMapNode = true
    · exact Or.inr ⟨run_bind_error (Alloc.request_error h2 b), _, h2⟩
    rw [run_bind_ok (Alloc.request_ok (Bool.eq_false_iff.mpr h2) b)]
    obtain ⟨hlay, hgrown⟩ := h.grow hp (al.place.pick_fresh b.cells.keys)
    exact Or.inl ⟨_, _, rfl, hlay, hgrown⟩

/-- The entry at `side` and `price` is gone; nothing else differs. -/
structure Shrunk (b b' : OrderBook) (side : Side) (price : Price) : Prop where
  nodes : b'.nodes = b.nodes
  orders : b'.orders = b.orders
  indices : b'.indices = b.indices
  gone : (b'.levels side).lookup price = none
  others : ∀ side' price', ¬(side' = side ∧ price' = price) →
    (b'.levels side').lookup price' = (b.levels side').lookup price'

/-- Erasing a level whose queue is empty. -/
theorem Layout.eraseLevel_ok (h : Layout b q fl) (hp : (b.levels side).lookup price = some level)
    (hqueue : q side price = []) :
    ∃ b', (eraseLevel side price).run b = .ok () b' ∧ Layout b' q fl ∧
      Shrunk b b' side price := by
  refine ⟨_, rfl, ?_⟩
  simp only [hp]
  have hothers : ∀ side' price', ¬(side' = side ∧ price' = price) →
      (Function.update b.levels side ((b.levels side).erase price) side').lookup price' =
        (b.levels side').lookup price' := by
    intro side' price' e
    simp only [update_levels, lookup_erase_ite]
    split_ifs with e1 e2
    · exact absurd ⟨e1, e2⟩ e
    · rw [e1]
    · rfl
  have hgone : (Function.update b.levels side ((b.levels side).erase price) side).lookup price =
      none := by
    simp only [update_levels, if_true, Finmap.lookup_erase]
  have hne : ∀ {side' price' p},
      (Function.update b.levels side ((b.levels side).erase price) side').lookup price' = some p →
      ¬(side' = side ∧ price' = price) := by
    rintro side' price' p hp' ⟨rfl, rfl⟩
    rw [hgone] at hp'; cases hp'
  refine ⟨h.relevel rfl rfl ?cell ?keep ?apart, rfl, rfl, rfl, hgone, hothers⟩
  case cell =>
    intro side' price' p hp'
    have e := hne hp'
    rw [hothers _ _ e] at hp'
    obtain ⟨l, hl, hf⟩ := h.cell _ _ _ hp'
    refine ⟨l, ?_, hf⟩
    rw [Finmap.lookup_erase_ne]
    · exact hl
    · rintro rfl
      exact e (h.apart _ _ _ _ _ hp hp')
  case keep =>
    intro side' price' hq
    refine hothers _ _ fun e => hq ?_
    obtain ⟨rfl, rfl⟩ := e
    exact hqueue
  case apart =>
    intro side₁ price₁ side₂ price₂ p h₁ h₂
    rw [hothers _ _ (hne h₁)] at h₁
    rw [hothers _ _ (hne h₂)] at h₂
    exact h.apart _ _ _ _ _ h₁ h₂

/-- The layout does not look at the price indices. -/
theorem Layout.reindex (h : Layout b q fl) (indices : Side → PriceIndex) :
    Layout { b with indices := indices } q fl :=
  h.relevel rfl rfl h.cell (fun _ _ _ => rfl) h.apart

/-! ## Nodes outside the queues -/

/-- A change of nodes and map entries that no queue sees. -/
theorem Layout.refloat (h : Layout b q fl) {b' : OrderBook} {fl' : Option NodePtr}
    (hlevels : b'.levels = b.levels) (hcells : b'.cells = b.cells)
    (hnode : ∀ side price, ∀ n ∈ q side price, b'.nodes.lookup n = b.nodes.lookup n)
    (howner : ∀ id n, (∃ side price, n ∈ q side price) → b.orders.lookup id = some n →
      b'.orders.lookup id = some n)
    (howned : ∀ id n, b'.orders.lookup id = some n → ∃ o, b'.nodes.lookup n = some o ∧
      o.id = id ∧ (fl' = some n ∨ n ∈ q o.side o.price))
    (hfloat : ∀ n, fl' = some n → (∀ side price, n ∉ q side price) ∧
      ∃ o, b'.nodes.lookup n = some o ∧ b'.orders.lookup o.id = some n) :
    Layout b' q fl' where
  cell side price p hp := by
    rw [hlevels] at hp
    rw [hcells]
    obtain ⟨l, hl, hf⟩ := h.cell side price p hp
    refine ⟨l, hl, hf.congr fun n hn => ?_⟩
    unfold shares
    rw [hnode side price n hn]
  listed side price hne := by rw [hlevels]; exact h.listed side price hne
  apart := by rw [hlevels]; exact h.apart
  node side price n hn := by
    obtain ⟨o, r⟩ := h.node side price n hn
    refine ⟨o, by rw [hnode side price n hn]; exact r.node, r.onSide, r.atPrice, r.positive, ?_,
      howner _ _ ⟨side, price, hn⟩ r.owner⟩
    rw [hlevels]; exact r.level
  owned := howned
  float := hfloat
  nodup := h.nodup
  linked side price := by
    refine (h.linked side price).congr ?_ ?_
    · intro n hn; unfold prevOf; rw [hnode side price n hn]
    · intro n hn; unfold nextOf; rw [hnode side price n hn]

/-- A new node under a new id: it floats. -/
theorem Layout.insert (h : Layout b q none) {id : OrderId} (hid : b.orders.lookup id = none)
    (hfresh : order ∉ b.nodes.keys) (ho : o.id = id) :
    Layout { b with nodes := b.nodes.insert order o, orders := b.orders.insert id order } q
      (some order) := by
  have hnew : ∀ {n o}, b.nodes.lookup n = some o → n ≠ order := by
    rintro n o hn rfl
    exact hfresh (Finmap.mem_keys.mpr (Finmap.mem_of_lookup_eq_some hn))
  have hout : ∀ side price, order ∉ q side price := fun side price hm =>
    (h.lookup_of_mem hm).elim fun _ hn => hnew hn rfl
  refine h.refloat rfl rfl ?node ?owner ?owned ?float
  case node =>
    intro side price n hn
    exact Finmap.lookup_insert_of_ne _ fun e => hout side price (e ▸ hn)
  case owner =>
    intro id' n _ hn
    rw [lookup_insert_ite, if_neg]
    · exact hn
    · rintro rfl
      rw [hid] at hn; cases hn
  case owned =>
    intro id' n hn
    rw [lookup_insert_ite] at hn
    split_ifs at hn with e
    · cases hn
      exact ⟨o, Finmap.lookup_insert _, ho.trans e.symm, Or.inl rfl⟩
    · obtain ⟨o', hn', hid', hq⟩ := h.owned id' n hn
      refine ⟨o', ?_, hid', Or.inr (hq.resolve_left (by simp))⟩
      rw [Finmap.lookup_insert_of_ne _ (hnew hn')]
      exact hn'
  case float =>
    intro n hn
    cases hn
    exact ⟨hout, o, Finmap.lookup_insert _, by rw [ho]; exact Finmap.lookup_insert _⟩

/-- Erasing the floating node. -/
theorem Layout.eraseOrder_ok (h : Layout b q (some order)) {id : OrderId}
    (hid : b.orders.lookup id = some order) :
    ∃ b', (eraseOrder id).run b = .ok () b' ∧ Layout b' q none ∧ b'.levels = b.levels ∧
      b'.indices = b.indices ∧ b'.orders = b.orders.erase id ∧
      ∀ n, n ≠ order → b'.nodes.lookup n = b.nodes.lookup n := by
  refine ⟨_, rfl, ?_⟩
  simp only [hid]
  obtain ⟨hout, o, ho, _⟩ := h.float order rfl
  have hkeep : ∀ n, n ≠ order → (b.nodes.erase order).lookup n = b.nodes.lookup n :=
    fun n hn => Finmap.lookup_erase_ne hn
  have hne : ∀ {id' n}, id' ≠ id → b.orders.lookup id' = some n → n ≠ order := by
    rintro id' n hid' hn rfl
    obtain ⟨o₁, h₁, e₁, _⟩ := h.owned _ _ hid
    obtain ⟨o₂, h₂, e₂, _⟩ := h.owned _ _ hn
    obtain rfl : o₁ = o₂ := Option.some.inj (h₁.symm.trans h₂)
    exact hid' (e₂.symm.trans e₁)
  refine ⟨h.refloat rfl rfl ?node ?owner ?owned (fun n hn => by cases hn), trivial, trivial,
    trivial, hkeep⟩
  case node => exact fun side price n hn => hkeep n fun e => hout side price (e ▸ hn)
  case owner =>
    rintro id' n ⟨side, price, hm⟩ hn
    have e : id' ≠ id := by
      rintro rfl
      rw [hid] at hn
      cases hn
      exact hout side price hm
    rw [Finmap.lookup_erase_ne e]
    exact hn
  case owned =>
    intro id' n hn
    rw [lookup_erase_ite] at hn
    split_ifs at hn with e
    have hno := hne e hn
    obtain ⟨o', hn', hid', hq⟩ := h.owned id' n hn
    refine ⟨o', by rw [hkeep n hno]; exact hn', hid', Or.inr (hq.resolve_left fun e' => ?_)⟩
    exact hno (Option.some.inj e').symm

/-- Rewriting the price and quantity of the floating node. -/
theorem Layout.reprice_ok (h : Layout b q (some order)) (ho : b.nodes.lookup order = some o)
    (price : Price) (quantity : Quantity) :
    ∃ b', (modifyNode order fun o => { o with price := price, quantity := quantity }).run b =
        .ok () b' ∧ Layout b' q (some order) ∧
      b' = { b with nodes := b.nodes.insert order { o with price := price, quantity := quantity } }
      := by
  refine ⟨_, by rw [modifyNode_run, ho], ?_, rfl⟩
  obtain ⟨hout, o₁, ho₁, howner⟩ := h.float order rfl
  obtain rfl : o = o₁ := Option.some.inj (ho.symm.trans ho₁)
  have hkeep : ∀ n, n ≠ order → (b.nodes.insert order
      { o with price := price, quantity := quantity }).lookup n = b.nodes.lookup n :=
    fun n hn => Finmap.lookup_insert_of_ne _ hn
  refine h.refloat rfl rfl ?node (fun _ _ _ hn => hn) ?owned ?float
  case node => exact fun side price n hn => hkeep n fun e => hout side price (e ▸ hn)
  case owned =>
    intro id n hn
    obtain ⟨o', hn', hid, hq⟩ := h.owned id n hn
    by_cases e : n = order
    · subst e
      obtain rfl : o = o' := Option.some.inj (ho.symm.trans hn')
      exact ⟨_, Finmap.lookup_insert _, hid, Or.inl rfl⟩
    · exact ⟨o', by rw [hkeep n e]; exact hn', hid, hq⟩
  case float =>
    intro n hn
    cases hn
    exact ⟨hout, _, Finmap.lookup_insert _, howner⟩

end OrderBook

end Lob
