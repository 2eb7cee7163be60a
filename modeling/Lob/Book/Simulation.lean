import Lob.Book.Represents

/-!
# The operations simulate the reference book

For each operation: on a book that represents `r` it returns what the reference book returns, and
the book afterwards represents the reference book afterwards; a call that returns false has changed
nothing. When an allocation fails the book still represents `r`.
-/

namespace Lob

open Basis

namespace OrderBook

variable {b : OrderBook} {q : Queues NodePtr} {r : ReferenceBook} {fl : Option NodePtr}
  {side : Side} {price : Price} {level : LevelPtr} {order : NodePtr} {o : OrderNode} {id : OrderId}

/-- The call returns what the reference book returns, and leaves a book that represents the reference
book afterwards. No empty level is left, and no change by a call that returns false. -/
def Returns (m : Book Bool) (b : OrderBook) (r : ReferenceBook) (result : Bool × ReferenceBook) :
    Prop :=
  ∃ b', m.run b = .ok result.1 b' ∧ Represents b' result.2 ∧ (Tight b r → Tight b' result.2) ∧
    (result.1 = false → b' = b)

/-- An allocation of the call fails, and the book represents what it did. -/
def Throws (al : Alloc) (m : Book Bool) (b : OrderBook) (r : ReferenceBook) : Prop :=
  ∃ b', m.run b = .error .badAlloc b' ∧ Represents b' r ∧ ∃ site, al.fails site = true

/-- What a program runs as decides what it does. -/
theorem simulates_of_run_eq {al : Alloc} {m m' : Book Bool} {result : Bool × ReferenceBook}
    (hrun : m.run b = m'.run b) (h : Returns m' b r result ∨ Throws al m' b r) :
    Returns m b r result ∨ Throws al m b r := by
  unfold Returns Throws at h ⊢
  rw [hrun]
  exact h

theorem Returns.refused {m : Book Bool} (h : Represents b r) (run : m.run b = .ok false b) :
    Returns m b r (false, r) := ⟨b, run, h, id, fun _ => rfl⟩

/-! ## Erasing -/

/-- An order of the represented book and its node. -/
theorem Represents.lookup (h : Represents b r) {ref : ReferenceOrder}
    (hr : r.orders.lookup id = some ref) :
    ∃ q n o, Layout b q none ∧ Indexed b q ∧ Agrees b q r ∧ b.orders.lookup id = some n ∧
      b.Resting ref.side ref.price n o ∧ n ∈ q ref.side ref.price ∧ o.id = id ∧
      o.reference = ref := by
  obtain ⟨q, hlay, hix, hag⟩ := h
  obtain ⟨n, o, hn, ro, hmem, hid, rfl⟩ := hag.lookup_some hlay hr
  exact ⟨q, n, o, hlay, hix, hag, hn, ro, hmem, hid, rfl⟩

/-- The level that lost its last order goes, with its price. -/
theorem dropLevel_ok (hlay : Layout b q fl) (hwf : ∀ side, (b.indices side).WF)
    (hactive : (b.indices side).Active price) (hp : (b.levels side).lookup price = some level)
    (hqueue : q side price = []) :
    ∃ b', (indexRemove side price >>= fun _ => eraseLevel side price).run b = .ok () b' ∧
      Layout b' q fl ∧ b'.nodes = b.nodes ∧ b'.orders = b.orders ∧
      (b'.levels side).lookup price = none ∧
      (∀ side' price', ¬(side' = side ∧ price' = price) →
        (b'.levels side').lookup price' = (b.levels side').lookup price') ∧
      (∀ side, (b'.indices side).WF) ∧ ∀ side' price', (b'.indices side').Active price' ↔
        (b.indices side').Active price' ∧ ¬(side' = side ∧ price' = price) := by
  obtain ⟨ix, run₁, wf, act⟩ := indexRemove_ok hwf hactive
  obtain ⟨b', run₂, hlay', sh⟩ := (hlay.reindex ix).eraseLevel_ok hp hqueue
  refine ⟨b', by rw [run_bind_ok run₁, run₂], hlay', sh.nodes, sh.orders, sh.gone, sh.others, ?_, ?_⟩
  · rw [sh.indices]; exact wf
  · rw [sh.indices]; exact act

/-- The check after unlinking, as `erase_node` and `modify` make it: where `d` holds, the level has
lost its last order and goes. -/
theorem settle {d : Prop} [Decidable d] {α : Type} (hlay : Layout b q fl)
    (hwf : ∀ side, (b.indices side).WF) (hp : (b.levels side).lookup price = some level)
    (hd : d → q side price = [] ∧ (b.indices side).Active price) (rest : Book α) :
    ∃ b', (if d then do indexRemove side price; eraseLevel side price; rest else rest).run b =
        rest.run b' ∧ Layout b' q fl ∧ b'.nodes = b.nodes ∧ b'.orders = b.orders ∧
      (∀ side, (b'.indices side).WF) ∧
      (∀ side' price', (b'.indices side').Active price' ↔
        (b.indices side').Active price' ∧ ¬(d ∧ side' = side ∧ price' = price)) ∧
      ∀ side' price', (b'.levels side').lookup price' =
        if d ∧ side' = side ∧ price' = price then none else (b.levels side').lookup price' := by
  by_cases h : d
  · obtain ⟨hqueue, hactive⟩ := hd h
    obtain ⟨b', run, lay, hn, ho, hgone, hkeep, wf, act⟩ := dropLevel_ok hlay hwf hactive hp hqueue
    refine ⟨b', by rw [if_pos h, run_bind_bind_ok run], lay, hn, ho, wf, by simpa [h] using act, ?_⟩
    intro side' price'
    by_cases e : side' = side ∧ price' = price
    · rw [if_pos ⟨h, e⟩, e.1, e.2, hgone]
    · rw [if_neg fun e' => e e'.2, hkeep _ _ e]
  · exact ⟨b, by rw [if_neg h], hlay, rfl, rfl, hwf, by simp [h], by simp [h]⟩

/-- **`erase_node`.** The order leaves its queue and the order map; a level that lost its last order
goes. -/
theorem eraseNode_ok (hlay : Layout b q none) (hix : Indexed b q) (hag : Agrees b q r)
    (hid : b.orders.lookup o.id = some order) (ro : b.Resting o.side o.price order o)
    (hmem : order ∈ q o.side o.price) :
    ∃ b', (eraseNode o.id order).run b = .ok () b' ∧
      Represents b' ((r.removeFromLevel o.id o.reference).eraseOrder o.id) ∧
      (Tight b r → Tight b' ((r.removeFromLevel o.id o.reference).eraseOrder o.id)) := by
  obtain ⟨level, _, hlev, _, _⟩ := hlay.level_of_mem hmem
  have hlevel : o.level = some level := ro.level.trans hlev
  obtain ⟨b₁, run₁, kept₁, lay₁⟩ := hlay.unlink_ok hmem hlev ro.node
  have ag₁ := hag.removeFromLevel hlay kept₁ ro.node hmem
  set q₁ := q.set o.side o.price ((q o.side o.price).erase order) with hq₁
  have hlev₁ : (b₁.levels o.side).lookup o.price = some level := by rw [kept₁.levels]; exact hlev
  obtain ⟨l, hl, hfits⟩ := lay₁.cell o.side o.price level hlev₁
  have hcount : l.orderCount = 0 ↔ q₁ o.side o.price = [] := by
    rw [hfits.count, List.length_eq_zero_iff]
  have hq_ne : q o.side o.price ≠ [] := List.ne_nil_of_mem hmem
  have hothers : ∀ side' price', ¬(side' = o.side ∧ price' = o.price) →
      q₁ side' price' = q side' price' := fun _ _ e => Queues.set_of_ne e
  obtain ⟨b₂, run₂, lay₂, hn₂, ho₂, wf₂, act₂, levels₂⟩ := settle (d := l.orderCount = 0) lay₁
    (by rw [kept₁.indices]; exact hix.wf) hlev₁
    (fun h => ⟨hcount.mp h, by rw [kept₁.indices]; exact (hix.active _ _).mpr hq_ne⟩)
    (eraseOrder o.id)
  have hid₂ : b₂.orders.lookup o.id = some order := by rw [ho₂, kept₁.orders]; exact hid
  obtain ⟨b₃, run₃, lay₃, levels₃, indices₃, orders₃, nodes₃⟩ := lay₂.eraseOrder_ok hid₂
  have ag₃ := (ag₁.congr hn₂ ho₂).eraseOrder lay₂ hid₂ orders₃ nodes₃
  refine ⟨b₃, ?run, ⟨q₁, lay₃, ⟨by rw [indices₃]; exact wf₂, ?active⟩, ag₃⟩, ?tight⟩
  case run =>
    unfold eraseNode
    rw [run_bind_ok (readNode_ok ro.node), run_bind_ok (observe_ok (by rw [hlevel]; rfl)),
      run_bind_bind_ok run₁, run_bind_ok (readLevel_ok hl)]
    exact run₂.trans run₃
  case active =>
    intro side' price'
    rw [indices₃, act₂, kept₁.indices, hix.active, hcount]
    by_cases e : side' = o.side ∧ price' = o.price
    · simp [e, hq_ne]
    · simp [e, hothers _ _ e]
  case tight =>
    intro ht side' price' p hp
    rw [levels₃, levels₂, kept₁.levels] at hp
    split_ifs at hp with h
    rw [Ne, ag₃.level_eq_nil]
    by_cases e : side' = o.side ∧ price' = o.price
    · rw [e.1, e.2]; exact fun h' => h ⟨hcount.mpr h', e⟩
    · rw [hothers _ _ e, ← hag.level_eq_nil]
      exact ht _ _ _ hp

theorem Represents.lookup_none (h : Represents b r) (hr : r.orders.lookup id = none) :
    b.orders.lookup id = none := by
  obtain ⟨q, hlay, _, hag⟩ := h
  exact hag.lookup_none hlay hr

theorem erase_returns (id : OrderId) (h : Represents b r) :
    Returns (erase id) b r (r.erase id) := by
  unfold ReferenceBook.erase
  cases hr : r.orders.lookup id with
  | none =>
    refine Returns.refused h ?_
    unfold erase
    rw [EStateM.run_bind]
    simp [h.lookup_none hr]
  | some ref =>
    obtain ⟨q, n, o, hlay, hix, hag, hn, ro, hmem, rfl, rfl⟩ := h.lookup hr
    obtain ⟨b', run, hrep, htight⟩ := eraseNode_ok hlay hix hag hn ro hmem
    refine ⟨b', ?_, hrep, htight, by simp⟩
    unfold erase
    rw [EStateM.run_bind]
    simp only [EStateM.run_get, hn]
    rw [run_bind_ok run]
    rfl

/-! ## Reductions -/

theorem resize_represents {b' : OrderBook} {l : PriceLevel} {k : Quantity} (hlay : Layout b q none)
    (hix : Indexed b q) (hag : Agrees b q r) (hid : b.orders.lookup o.id = some order)
    (ho : b.nodes.lookup order = some o) (hmem : order ∈ q o.side o.price)
    (hlev : (b.levels o.side).lookup o.price = some level) (hl : b.cells.lookup level = some l)
    (rw' : Rewires b b' (resized order k) level
      { l with quantity := l.quantity - (o.quantity - k).setWidth 64 })
    (hk : k ≤ o.quantity) (hk0 : k ≠ 0) :
    Represents b' (r.setOrder o.id { o.reference with quantity := k }) ∧
      (Tight b r → Tight b' (r.setOrder o.id { o.reference with quantity := k })) := by
  have hnodes : ∀ n, b'.nodes.lookup n =
      if n = order then some { o with quantity := k } else b.nodes.lookup n := by
    intro n
    rw [rw'.nodes]
    split_ifs with e
    · subst e; rw [ho]; simp [resized]
    · cases b.nodes.lookup n <;> simp [resized, e]
  have horders : ∀ id', b'.orders.lookup id' =
      if id' = o.id then some order else b.orders.lookup id' := by
    intro id'
    rw [rw'.orders]
    split_ifs with e
    · rw [e, hid]
    · rfl
  refine ⟨⟨q, hlay.resize hmem hlev hl ho rw' hk hk0, ?_, ?_⟩, ?_⟩
  · exact ⟨by rw [rw'.indices]; exact hix.wf, by rw [rw'.indices]; exact hix.active⟩
  · exact hag.setOrder (o := { o with quantity := k }) hlay horders hnodes rfl (Or.inl hid)
  · intro ht side' price' p hp
    rw [rw'.levels] at hp
    exact ht _ _ _ hp

/-- `cancel` of an order and its node. -/
theorem cancel_run (hid : b.orders.lookup id = some order) (ho : b.nodes.lookup order = some o)
    (quantity : Quantity) : (cancel id quantity).run b =
      (if quantity = 0 ∨ quantity > o.quantity then pure false
      else if quantity = o.quantity then do eraseNode id order; return true
      else do
        modifyNode order fun o => { o with quantity := o.quantity - quantity }
        let level ← observe fun _ => deref o.level
        modifyLevel level fun l => { l with quantity := l.quantity - quantity.setWidth 64 }
        return true : Book Bool).run b := by
  unfold cancel
  rw [EStateM.run_bind]
  simp only [EStateM.run_get, hid]
  rw [run_bind_ok (readNode_ok ho)]

theorem cancel_returns (id : OrderId) (quantity : Quantity) (h : Represents b r) :
    Returns (cancel id quantity) b r (r.cancel id quantity) := by
  unfold ReferenceBook.cancel
  cases hr : r.orders.lookup id with
  | none =>
    refine Returns.refused h ?_
    unfold cancel
    rw [EStateM.run_bind]
    simp [h.lookup_none hr]
  | some ref =>
    obtain ⟨q, n, o, hlay, hix, hag, hn, ro, hmem, rfl, rfl⟩ := h.lookup hr
    have hstart := cancel_run hn ro.node quantity
    show Returns _ b r (if quantity = 0 ∨ quantity > o.quantity then (false, r)
      else if quantity = o.quantity then r.erase o.id
      else (true, r.setOrder o.id { o.reference with quantity := o.quantity - quantity }))
    by_cases h1 : quantity = 0 ∨ quantity > o.quantity
    · rw [if_pos h1]
      exact Returns.refused h (by rw [hstart, if_pos h1]; rfl)
    rw [if_neg h1]
    rw [if_neg h1] at hstart
    by_cases h2 : quantity = o.quantity
    · rw [if_pos h2] at hstart
      obtain ⟨b', run, hrep, htight⟩ := eraseNode_ok hlay hix hag hn ro hmem
      rw [if_pos h2]
      unfold ReferenceBook.erase
      rw [hr]
      exact ⟨b', by rw [hstart, run_bind_ok run]; rfl, hrep, htight, by simp⟩
    · rw [if_neg h2] at hstart ⊢
      obtain ⟨level, l, hlev, hl, _⟩ := hlay.level_of_mem hmem
      obtain ⟨b₁, run₁, r₁⟩ := modifyNode_rewires
        (fun o => { o with quantity := o.quantity - quantity }) hl ro.node
      obtain ⟨b₂, run₂, r₂⟩ := modifyLevel_rewires
        (fun l => { l with quantity := l.quantity - quantity.setWidth 64 }) r₁.lookup_level
      have hlevel : o.level = some level := ro.level.trans hlev
      have hlt : quantity.toNat < o.quantity.toNat := by bv_omega
      have hback : o.quantity - (o.quantity - quantity) = quantity := by bv_omega
      have hrw : Rewires b b₂ (resized n (o.quantity - quantity)) level
          { l with quantity := l.quantity - (o.quantity - (o.quantity - quantity)).setWidth 64 } := by
        rw [hback]
        refine (r₁.trans r₂).congr fun m o' ho' => ?_
        by_cases e : m = n
        · subst e
          obtain rfl : o = o' := Option.some.inj (ro.node.symm.trans ho')
          simp [resized]
        · simp [resized, e]
      have hres := resize_represents hlay hix hag hn ro.node hmem hlev hl hrw (by bv_omega)
        (by bv_omega)
      refine ⟨b₂, ?_, hres.1, hres.2, by simp⟩
      rw [hstart, run_bind_ok run₁, run_bind_ok (observe_ok (by rw [hlevel]; rfl)),
        run_bind_ok run₂]
      rfl

/-! ## Adding -/

/-- A price is activated unless it is active already. -/
theorem activate_spec (al : Alloc) {isNew : Bool} (hnew : isNew = false → (b.indices side).Active price)
    (hwf : ∀ side, (b.indices side).WF) :
    (∃ ix, (if isNew = true then indexAdd al side price else pure () : Book Unit).run b =
        .ok () { b with indices := ix } ∧
        (∀ side, (ix side).WF) ∧ ∀ side' price', (ix side').Active price' ↔
          (side' = side ∧ price' = price) ∨ (b.indices side').Active price') ∨
      ∃ ix, (if isNew = true then indexAdd al side price else pure () : Book Unit).run b =
        .error .badAlloc { b with indices := ix } ∧ (∀ side, (ix side).WF) ∧
        (∀ side' price', (ix side').Active price' ↔ (b.indices side').Active price') ∧
        ∃ site, al.fails site = true := by
  cases isNew with
  | true => exact indexAdd_spec al side price hwf
  | false =>
    refine Or.inl ⟨b.indices, rfl, hwf, fun side' price' => ⟨Or.inr, ?_⟩⟩
    rintro (⟨rfl, rfl⟩ | h)
    · exact hnew rfl
    · exact h

theorem setOrder_eraseOrder {ref : ReferenceOrder} (h : r.orders.lookup id = none) :
    (r.setOrder id ref).eraseOrder id = r := by
  unfold ReferenceBook.setOrder ReferenceBook.eraseOrder
  congr 1
  apply Finmap.ext_lookup
  intro id'
  simp only [lookup_erase_ite, lookup_insert_ite]
  split_ifs with e
  · rw [e, h]
  · rfl

/-- The same queues and orders, with other levels and indices. -/
theorem Represents.regrow {b' : OrderBook} (hlay : Layout b' q none) (hag : Agrees b q r)
    (hn : b'.nodes = b.nodes) (ho : b'.orders = b.orders) (hwf : ∀ side, (b'.indices side).WF)
    (hact : ∀ side price, (b'.indices side).Active price ↔ q side price ≠ []) :
    Represents b' r :=
  ⟨q, hlay, ⟨hwf, hact⟩, hag.congr hn ho⟩

/-- The end of `add`: the price is activated where the level is empty, and the floating node rests. An
activation that fails takes the node back. -/
theorem rest_spec (al : Alloc) {l : PriceLevel} (hlay : Layout b q (some order))
    (hag : Agrees b q (r.setOrder o.id o.reference)) (hrid : r.orders.lookup o.id = none)
    (hix : Indexed b q) (hid : b.orders.lookup o.id = some order)
    (ho : b.nodes.lookup order = some o) (hq0 : o.quantity ≠ 0)
    (hlev : (b.levels o.side).lookup o.price = some level) (hl : b.cells.lookup level = some l) :
    (∃ b', (tryCatch (if (l.orderCount == 0) = true then indexAdd al o.side o.price else pure ())
          (fun fault => do eraseOrder o.id; throw fault) >>= fun _ => do
        append level order
        return true : Book Bool).run b = .ok true b' ∧
        Represents b' ((r.setOrder o.id o.reference).pushBack o.side o.price o.id) ∧
        b'.levels = b.levels) ∨
      ∃ b', (tryCatch (if (l.orderCount == 0) = true then indexAdd al o.side o.price else pure ())
          (fun fault => do eraseOrder o.id; throw fault) >>= fun _ => do
        append level order
        return true : Book Bool).run b = .error .badAlloc b' ∧ Represents b' r ∧
        ∃ site, al.fails site = true := by
  obtain ⟨l', hl', hfits⟩ := hlay.cell o.side o.price level hlev
  obtain rfl : l = l' := Option.some.inj (hl.symm.trans hl')
  have hnew : (l.orderCount == 0) = false → (b.indices o.side).Active o.price := by
    intro e
    rw [hix.active]
    intro hnil
    rw [hfits.count, hnil] at e
    cases e
  rcases activate_spec al hnew hix.wf with ⟨ix, run₁, wf, act⟩ | ⟨ix, run₁, wf, act, hf⟩
  · have ag₁ : Agrees { b with indices := ix } q _ := hag.congr rfl rfl
    obtain ⟨b₂, run₂, kept₂, lay₂⟩ := (hlay.reindex ix).append_ok hlev ho rfl rfl hq0
    refine Or.inl ⟨b₂, ?_, ⟨_, lay₂, ⟨?_, ?_⟩, ag₁.pushBack kept₂ _ _ ho⟩, kept₂.levels⟩
    · rw [run_bind_ok (tryCatch_ok run₁), run_bind_ok run₂]
      rfl
    · rw [kept₂.indices]; exact wf
    · intro side' price'
      rw [kept₂.indices, act, hix.active]
      by_cases e : side' = o.side ∧ price' = o.price
      · rw [e.1, e.2, Queues.set_self]; simp
      · rw [Queues.set_of_ne e]; simp [e]
  · have ag₁ : Agrees { b with indices := ix } q _ := hag.congr rfl rfl
    have lay₁ := hlay.reindex ix
    obtain ⟨b₂, run₂, lay₂, levels₂, indices₂, orders₂, nodes₂⟩ := lay₁.eraseOrder_ok hid
    have ag₂ := ag₁.eraseOrder lay₁ hid orders₂ nodes₂
    rw [setOrder_eraseOrder hrid] at ag₂
    refine Or.inr ⟨b₂, ?_, ⟨q, lay₂, ⟨?_, ?_⟩, ag₂⟩, hf⟩
    · refine run_bind_error ((tryCatch_error run₁).trans ?_)
      rw [run_bind_ok run₂]
      rfl
    · rw [indices₂]; exact wf
    · intro side' price'
      rw [indices₂, act, hix.active]

theorem add_simulates (al : Alloc) (id : OrderId) (side : Side) (price : Price)
    (quantity : Quantity) (h : Represents b r) :
    Returns (add al id side price quantity) b r (r.add id side price quantity) ∨
      Throws al (add al id side price quantity) b r := by
  have h₀ := h
  obtain ⟨q, hlay, hix, hag⟩ := h
  have hstart : (add al id side price quantity).run b =
      (if quantity = 0 ∨ r.contains id = true then pure false
      else do
        let level ← getOrCreateLevel al side price
        al.request .orderNode
        al.request .orderMapNode
        if (← get).contains id then
          return false
        let order := al.place.pick (← get).nodes.keys
        modifyGet fun b => ((), { b with
          nodes := b.nodes.insert order ⟨id, side, price, quantity, none, none, none⟩
          orders := b.orders.insert id order })
        let wasEmpty := (← readLevel level).orderCount == 0
        try
          if wasEmpty then
            indexAdd al side price
        catch fault =>
          eraseOrder id
          throw fault
        append level order
        return true : Book Bool).run b := by
    unfold add
    rw [EStateM.run_bind]
    simp only [EStateM.run_get, hag.contains hlay]
    rfl
  unfold ReferenceBook.add
  by_cases hbad : quantity = 0 ∨ r.contains id = true
  · rw [if_pos hbad] at hstart ⊢
    exact Or.inl (Returns.refused h₀ hstart)
  rw [if_neg hbad] at hstart ⊢
  obtain ⟨hq0, hcon⟩ := not_or.mp hbad
  have hrid : r.orders.lookup id = none := by
    unfold ReferenceBook.contains at hcon
    simpa using hcon
  have hbid := hag.lookup_none hlay hrid
  rcases hlay.getOrCreateLevel_spec al side price with ⟨b₁, level, run₁, lay₁, grown⟩ | ⟨run₁, hf⟩
  swap
  · exact Or.inr ⟨b, by rw [hstart, run_bind_error run₁], h₀, hf⟩
  have hrep₁ : Represents b₁ r := .regrow lay₁ hag grown.nodes grown.orders
    (by rw [grown.indices]; exact hix.wf) (by rw [grown.indices]; exact hix.active)
  rw [run_bind_ok run₁] at hstart
  by_cases hf₁ : al.fails .orderNode = true
  · exact Or.inr ⟨b₁, by rw [hstart, run_bind_error (Alloc.request_error hf₁ _)], hrep₁, _, hf₁⟩
  rw [run_bind_ok (Alloc.request_ok (Bool.eq_false_iff.mpr hf₁) _)] at hstart
  by_cases hf₂ : al.fails .orderMapNode = true
  · exact Or.inr ⟨b₁, by rw [hstart, run_bind_error (Alloc.request_error hf₂ _)], hrep₁, _, hf₂⟩
  rw [run_bind_ok (Alloc.request_ok (Bool.eq_false_iff.mpr hf₂) _)] at hstart
  -- the new node floats
  have hbid₁ : b₁.orders.lookup id = none := by rw [grown.orders]; exact hbid
  have hcon₁ : b₁.contains id = false := by unfold contains; rw [hbid₁]; rfl
  have hfresh := al.place.pick_fresh b₁.nodes.keys
  set order := al.place.pick b₁.nodes.keys
  set node : OrderNode := ⟨id, side, price, quantity, none, none, none⟩ with hnode
  set b₂ : OrderBook := { b₁ with
    nodes := b₁.nodes.insert order node, orders := b₁.orders.insert id order } with hb₂
  have lay₂ : Layout b₂ q (some order) := lay₁.insert hbid₁ hfresh rfl
  have ag₂ : Agrees b₂ q (r.setOrder id ⟨side, price, quantity⟩) :=
    (hag.congr grown.nodes grown.orders).setOrder (o := node) lay₁
      (fun id' => lookup_insert_ite _ _ _ _) (fun n => lookup_insert_ite _ _ _ _) rfl
      (Or.inr (Finmap.lookup_eq_none.mpr fun hm => hfresh (Finmap.mem_keys.mpr hm)))
  have ix₂ : Indexed b₂ q := by
    constructor
    · show ∀ side, (b₁.indices side).WF
      rw [grown.indices]; exact hix.wf
    · show ∀ side price, (b₁.indices side).Active price ↔ _
      rw [grown.indices]; exact hix.active
  obtain ⟨l, hl, _⟩ := lay₂.cell side price level grown.found
  have htail := rest_spec (o := node) al lay₂ ag₂ hrid ix₂ (Finmap.lookup_insert _)
    (Finmap.lookup_insert _) hq0 grown.found hl
  have hrun : (add al id side price quantity).run b =
      (tryCatch (if (l.orderCount == 0) = true then indexAdd al side price else pure ())
          (fun fault => do eraseOrder id; throw fault) >>= fun _ => do
        append level order
        return true : Book Bool).run b₂ := by
    rw [hstart, EStateM.run_bind]
    simp only [EStateM.run_get, hcon₁]
    rw [if_neg (by simp), EStateM.run_bind]
    simp only [EStateM.run_get]
    rw [EStateM.run_bind]
    simp only [EStateM.run_modifyGet]
    rw [run_bind_ok (readLevel_ok hl)]
  rw [← hrun] at htail
  rcases htail with ⟨b₃, run₃, hrep₃, levels₃⟩ | ⟨b₃, run₃, hrep₃, hf⟩
  · refine Or.inl ⟨b₃, run₃, hrep₃, ?_, by simp⟩
    intro ht side' price' p hp
    rw [levels₃] at hp
    show (r.levels.set side price (r.levels side price ++ [id])) side' price' ≠ []
    by_cases e : side' = side ∧ price' = price
    · rw [e.1, e.2, Queues.set_self]; simp
    · rw [Queues.set_of_ne e]
      exact ht _ _ p ((grown.others _ _ e).symm.trans hp)
  · exact Or.inr ⟨b₃, run₃, hrep₃, hf⟩

/-! ## Modifying -/

theorem reprice_spec (hlay : Layout b q (some order)) (hag : Agrees b q r)
    (ho : b.nodes.lookup order = some o) (price : Price) (quantity : Quantity) :
    ∃ b', (modifyNode order fun o => { o with price := price, quantity := quantity }).run b =
        .ok () b' ∧ Layout b' q (some order) ∧
      Agrees b' q (r.setOrder o.id ⟨o.side, price, quantity⟩) ∧ b'.levels = b.levels ∧
      b'.indices = b.indices ∧
      b'.nodes.lookup order = some { o with price := price, quantity := quantity } := by
  obtain ⟨b', run, lay, rfl⟩ := hlay.reprice_ok ho price quantity
  obtain ⟨_, o', ho', howner⟩ := hlay.float order rfl
  obtain rfl : o = o' := Option.some.inj (ho.symm.trans ho')
  refine ⟨_, run, lay, ?_, rfl, rfl, Finmap.lookup_insert _⟩
  refine hag.setOrder (o := { o with price := price, quantity := quantity }) hlay
    ?_ (fun n => lookup_insert_ite _ _ _ _) rfl (Or.inl howner)
  intro id'
  show b.orders.lookup id' = _
  split_ifs with e
  · rw [e, howner]
  · rfl

/-- The end of `modify`: the order leaves its queue for the tail of the new one. The levels may be the
same, and the old one may lose its last order. -/
theorem requeue_ok {oldLevel newLevel : LevelPtr} {k : Quantity} (newPrice : Price)
    (hlay : Layout b q none) (hag : Agrees b q r) (hwf : ∀ side, (b.indices side).WF)
    (hact : ∀ side' price', (b.indices side').Active price' ↔
      (side' = o.side ∧ price' = newPrice) ∨ q side' price' ≠ [])
    (ho : b.nodes.lookup order = some o) (hmem : order ∈ q o.side o.price)
    (hold : (b.levels o.side).lookup o.price = some oldLevel)
    (hnew : (b.levels o.side).lookup newPrice = some newLevel) (hk0 : k ≠ 0) :
    let r' := ((r.removeFromLevel o.id o.reference).setOrder o.id ⟨o.side, newPrice, k⟩).pushBack
      o.side newPrice o.id
    ∃ b', (do
        modifyLevel oldLevel fun l => { l with quantity := l.quantity - o.quantity.setWidth 64 }
        detach oldLevel order
        if (← readLevel oldLevel).orderCount = 0 ∧ oldLevel ≠ newLevel then
          indexRemove o.side o.price
          eraseLevel o.side o.price
        modifyNode order fun o => { o with price := newPrice, quantity := k }
        append newLevel order
        return true : Book Bool).run b = .ok true b' ∧ Represents b' r' ∧
      ((∀ side' price' p, (b.levels side').lookup price' = some p →
        ¬(side' = o.side ∧ price' = newPrice) → r.levels side' price' ≠ []) → Tight b' r') := by
  intro r'
  obtain ⟨b₁, run₁, kept₁, lay₁⟩ := hlay.unlink_ok hmem hold ho
  have ag₁ := hag.removeFromLevel hlay kept₁ ho hmem
  set q₁ := q.set o.side o.price ((q o.side o.price).erase order) with hq₁
  have hold₁ : (b₁.levels o.side).lookup o.price = some oldLevel := by rw [kept₁.levels]; exact hold
  obtain ⟨l, hl, hfits⟩ := lay₁.cell o.side o.price oldLevel hold₁
  have hcount : l.orderCount = 0 ↔ q₁ o.side o.price = [] := by
    rw [hfits.count, List.length_eq_zero_iff]
  have hothers : ∀ side' price', ¬(side' = o.side ∧ price' = o.price) →
      q₁ side' price' = q side' price' := fun _ _ e => Queues.set_of_ne e
  have hq_ne : q o.side o.price ≠ [] := List.ne_nil_of_mem hmem
  -- the levels are the same exactly when the prices are
  have hsame : oldLevel = newLevel ↔ newPrice = o.price := by
    constructor
    · rintro rfl
      exact (hlay.apart _ _ _ _ _ hold hnew).2
    · rintro rfl
      exact Option.some.inj (hold.symm.trans hnew)
  obtain ⟨b₂, run₂, lay₂, hn₂, ho₂, wf₂, act₂, levels₂⟩ := settle
    (d := l.orderCount = 0 ∧ oldLevel ≠ newLevel) lay₁
    (by rw [kept₁.indices]; exact hwf) hold₁
    (fun h => ⟨hcount.mp h.1, by rw [kept₁.indices]; exact (hact _ _).mpr (Or.inr hq_ne)⟩)
    (do
      modifyNode order fun o => { o with price := newPrice, quantity := k }
      append newLevel order
      return true)
  -- the floating node still shows the old order
  obtain ⟨_, o₂, ho₂', _⟩ := lay₂.float order rfl
  have hview : o₂.view = o.view := by
    have h := kept₁.view order
    rw [← hn₂, ho₂', ho] at h
    exact Option.some.inj h
  have hid₂ : o₂.id = o.id := congrArg OrderView.orderId hview
  have hside₂ : o₂.side = o.side := congrArg OrderView.side hview
  obtain ⟨b₃, run₃, lay₃, ag₃, levels₃, indices₃, ho₃⟩ :=
    reprice_spec lay₂ (ag₁.congr hn₂ ho₂) ho₂' newPrice k
  have hnew₃ : (b₃.levels o.side).lookup newPrice = some newLevel := by
    rw [levels₃, levels₂, if_neg, kept₁.levels]
    · exact hnew
    · rintro ⟨⟨_, hne⟩, _, e⟩
      exact hne (hsame.mpr e)
  obtain ⟨b₄, run₄, kept₄, lay₄⟩ := lay₃.append_ok hnew₃ ho₃ hside₂ rfl hk0
  have ag₄ : Agrees b₄ (q₁.set o.side newPrice (q₁ o.side newPrice ++ [order])) r' := by
    have := ag₃.pushBack kept₄ o.side newPrice ho₃
    rwa [hside₂, hid₂] at this
  refine ⟨b₄, ?run, ⟨_, lay₄, ⟨?wf, ?active⟩, ag₄⟩, ?tight⟩
  case run =>
    rw [run_bind_bind_ok run₁, run_bind_ok (readLevel_ok hl)]
    refine run₂.trans ?_
    rw [run_bind_ok run₃, run_bind_ok run₄]
    rfl
  case wf => rw [kept₄.indices, indices₃]; exact wf₂
  case active =>
    intro side' price'
    rw [kept₄.indices, indices₃, act₂, kept₁.indices, hact, hcount]
    by_cases e : side' = o.side ∧ price' = newPrice
    · rw [e.1, e.2, Queues.set_self]
      simp only [and_self, true_or, true_and, ne_eq, List.append_eq_nil_iff, List.cons_ne_self,
        and_false, not_false_eq_true, iff_true]
      rintro ⟨⟨_, hne⟩, e'⟩
      exact hne (hsame.mpr e')
    · rw [Queues.set_of_ne e]
      by_cases e' : side' = o.side ∧ price' = o.price
      · have hne : oldLevel ≠ newLevel := fun h => e ⟨e'.1, e'.2.trans (hsame.mp h).symm⟩
        rw [e'.1, e'.2]
        simp [hq_ne, hne]
      · rw [hothers _ _ e']
        simp [e, e']
  case tight =>
    intro ht side' price' p hp
    rw [kept₄.levels, levels₃] at hp
    rw [ne_eq, ag₄.level_eq_nil]
    by_cases e : side' = o.side ∧ price' = newPrice
    · rw [e.1, e.2, Queues.set_self]; simp
    · rw [Queues.set_of_ne e]
      rw [levels₂, kept₁.levels] at hp
      split_ifs at hp with h
      by_cases e' : side' = o.side ∧ price' = o.price
      · have hne : oldLevel ≠ newLevel := fun h => e ⟨e'.1, e'.2.trans (hsame.mp h).symm⟩
        rw [e'.1, e'.2]
        exact fun hnil => h ⟨⟨hcount.mpr hnil, hne⟩, e'⟩
      · rw [hothers _ _ e', ← hag.level_eq_nil]
        exact ht _ _ _ hp e

/-- A `modify` that loses its place: the new level is found or made, its price is activated where it is
empty, and the order is requeued. -/
theorem move_simulates (al : Alloc) {oldLevel : LevelPtr} {k : Quantity} (newPrice : Price)
    (hlay : Layout b q none) (hix : Indexed b q) (hag : Agrees b q r)
    (ho : b.nodes.lookup order = some o) (hmem : order ∈ q o.side o.price)
    (hold : (b.levels o.side).lookup o.price = some oldLevel) (hk0 : k ≠ 0) :
    let move : Book Bool := do
      let newLevel ← getOrCreateLevel al o.side newPrice
      let isNew := newLevel != oldLevel && (← readLevel newLevel).orderCount == 0
      if isNew then
        indexAdd al o.side newPrice
      modifyLevel oldLevel fun l => { l with quantity := l.quantity - o.quantity.setWidth 64 }
      detach oldLevel order
      if (← readLevel oldLevel).orderCount = 0 ∧ oldLevel ≠ newLevel then
        indexRemove o.side o.price
        eraseLevel o.side o.price
      modifyNode order fun o => { o with price := newPrice, quantity := k }
      append newLevel order
      return true
    Returns move b r (true, ((r.removeFromLevel o.id o.reference).setOrder o.id
      ⟨o.side, newPrice, k⟩).pushBack o.side newPrice o.id) ∨ Throws al move b r := by
  intro move
  rcases hlay.getOrCreateLevel_spec al o.side newPrice with
    ⟨b₁, newLevel, run₁, lay₁, grown⟩ | ⟨run₁, hf⟩
  swap
  · exact Or.inr ⟨b, run_bind_error run₁, ⟨q, hlay, hix, hag⟩, hf⟩
  have hwf₁ : ∀ side, (b₁.indices side).WF := by rw [grown.indices]; exact hix.wf
  have hact₁ : ∀ side price, (b₁.indices side).Active price ↔ q side price ≠ [] := by
    rw [grown.indices]; exact hix.active
  have hold₁ : (b₁.levels o.side).lookup o.price = some oldLevel := by
    by_cases e : o.price = newPrice
    · have hsame := grown.present oldLevel (e ▸ hold)
      have hfound := grown.found
      rw [e, hsame]; exact hfound
    · exact (grown.others _ _ fun e' => e e'.2).trans hold
  obtain ⟨l₁, hl₁, hfits₁⟩ := lay₁.cell _ _ _ grown.found
  have hnew : (newLevel != oldLevel && l₁.orderCount == 0) = false →
      (b₁.indices o.side).Active newPrice := by
    intro e
    rw [hact₁]
    rcases Bool.and_eq_false_iff.mp e with e | e
    · obtain rfl : newLevel = oldLevel := by simpa using e
      obtain rfl := (lay₁.apart _ _ _ _ _ hold₁ grown.found).2
      exact List.ne_nil_of_mem hmem
    · intro hnil
      rw [hfits₁.count, hnil] at e
      cases e
  have hstart : move.run b = _ := (run_bind_ok run₁).trans (run_bind_ok (readLevel_ok hl₁))
  simp only [ite_bind] at hstart
  rcases activate_spec al hnew hwf₁ with ⟨ix, run₂, wf₂, act₂⟩ | ⟨ix, run₂, wf₂, act₂, hf⟩
  · have ag₂ : Agrees { b₁ with indices := ix } q r := hag.congr grown.nodes grown.orders
    obtain ⟨b₃, run₃, hrep₃, htight₃⟩ := requeue_ok newPrice (lay₁.reindex ix) ag₂ wf₂
      (fun side' price' => by rw [act₂, hact₁]) (grown.nodes ▸ ho) hmem hold₁ grown.found hk0
    refine Or.inl ⟨b₃, ?_, hrep₃, fun ht => htight₃ fun side' price' p hp e => ?_, by simp⟩
    · rw [hstart, run_bind_ok run₂]
      exact run₃
    · exact ht _ _ p ((grown.others _ _ e).symm.trans hp)
  · refine Or.inr ⟨_, by rw [hstart, run_bind_error run₂], ?_, hf⟩
    exact .regrow (lay₁.reindex ix) hag grown.nodes grown.orders wf₂
      fun side' price' => by rw [act₂, hact₁]

theorem modify_simulates (al : Alloc) (id : OrderId) (newPrice : Price) (newQuantity : Quantity)
    (h : Represents b r) :
    Returns (modify al id newPrice newQuantity) b r (r.modify id newPrice newQuantity) ∨
      Throws al (modify al id newPrice newQuantity) b r := by
  unfold ReferenceBook.modify
  cases hr : r.orders.lookup id with
  | none =>
    refine Or.inl (Returns.refused h ?_)
    unfold modify
    rw [EStateM.run_bind]
    simp [h.lookup_none hr]
  | some ref =>
    obtain ⟨q, n, o, hlay, hix, hag, hn, ro, hmem, rfl, rfl⟩ := h.lookup hr
    show Returns _ b r (if newQuantity = 0 then (false, r)
      else if newPrice = o.price ∧ newQuantity ≤ o.quantity then
        (true, r.setOrder o.id { o.reference with quantity := newQuantity })
      else (true, ((r.removeFromLevel o.id o.reference).setOrder o.id
        ⟨o.side, newPrice, newQuantity⟩).pushBack o.side newPrice o.id)) ∨ _
    by_cases h0 : newQuantity = 0
    · rw [if_pos h0]
      refine Or.inl (Returns.refused h ?_)
      unfold modify
      rw [EStateM.run_bind]
      simp only [EStateM.run_get, hn]
      rw [if_pos h0]
      rfl
    rw [if_neg h0]
    obtain ⟨oldLevel, l, hold, hl, _⟩ := hlay.level_of_mem hmem
    have hlevel : o.level = some oldLevel := ro.level.trans hold
    have hstart : (modify al o.id newPrice newQuantity).run b =
        (if newPrice = o.price ∧ newQuantity ≤ o.quantity then do
          modifyLevel oldLevel fun l =>
            { l with quantity := l.quantity - (o.quantity - newQuantity).setWidth 64 }
          modifyNode n fun o => { o with quantity := newQuantity }
          return true
        else do
          let newLevel ← getOrCreateLevel al o.side newPrice
          let isNew := newLevel != oldLevel && (← readLevel newLevel).orderCount == 0
          if isNew then
            indexAdd al o.side newPrice
          modifyLevel oldLevel fun l => { l with quantity := l.quantity - o.quantity.setWidth 64 }
          detach oldLevel n
          if (← readLevel oldLevel).orderCount = 0 ∧ oldLevel ≠ newLevel then
            indexRemove o.side o.price
            eraseLevel o.side o.price
          modifyNode n fun o => { o with price := newPrice, quantity := newQuantity }
          append newLevel n
          return true : Book Bool).run b := by
      unfold modify
      rw [EStateM.run_bind]
      simp only [EStateM.run_get, hn]
      rw [if_neg h0, run_bind_ok (readNode_ok ro.node),
        run_bind_ok (observe_ok (by rw [hlevel]; rfl))]
    by_cases hin : newPrice = o.price ∧ newQuantity ≤ o.quantity
    · -- in place
      rw [if_pos hin] at hstart ⊢
      obtain ⟨b₁, run₁, r₁⟩ := modifyLevel_rewires (fun l =>
        { l with quantity := l.quantity - (o.quantity - newQuantity).setWidth 64 }) hl
      obtain ⟨b₂, run₂, r₂⟩ := modifyNode_rewires
        (fun o => { o with quantity := newQuantity }) r₁.lookup_level (r₁.lookup_node ro.node)
      have hres := resize_represents hlay hix hag hn ro.node hmem hold hl (r₁.trans r₂) hin.2 h0
      refine Or.inl ⟨b₂, ?_, hres.1, hres.2, by simp⟩
      rw [hstart, run_bind_ok run₁, run_bind_ok run₂]
      rfl
    · rw [if_neg hin] at hstart ⊢
      exact simulates_of_run_eq hstart
        (move_simulates al newPrice hlay hix hag ro.node hmem hold h0)

theorem replace_simulates (al : Alloc) (oldId newId : OrderId) (newPrice : Price)
    (newQuantity : Quantity) (h : Represents b r) :
    Returns (replace al oldId newId newPrice newQuantity) b r
        (r.replace oldId newId newPrice newQuantity) ∨
      Throws al (replace al oldId newId newPrice newQuantity) b r := by
  unfold ReferenceBook.replace
  cases hr : r.orders.lookup oldId with
  | none =>
    refine Or.inl (Returns.refused h ?_)
    unfold replace
    rw [run_get_bind, h.lookup_none hr]
    rfl
  | some ref =>
    obtain ⟨q, n, o, hlay, hix, hag, hn, ro, hmem, hoid, rfl⟩ := h.lookup hr
    have hstart : (replace al oldId newId newPrice newQuantity).run b =
        (do
          if newQuantity = 0 then
            return false
          if oldId = newId then
            return ← modify al oldId newPrice newQuantity
          if (← get).contains newId then
            return false
          let side := (← readNode n).side
          if !(← add al newId side newPrice newQuantity) then
            return false
          erase oldId : Book Bool).run b := by
      unfold replace
      rw [run_get_bind, hn]
    simp only
    by_cases h0 : newQuantity = 0
    · rw [if_pos h0] at hstart ⊢
      exact Or.inl (Returns.refused h hstart)
    rw [if_neg h0] at hstart ⊢
    by_cases hsame : oldId = newId
    · rw [if_pos hsame] at hstart ⊢
      exact simulates_of_run_eq hstart (modify_simulates al oldId newPrice newQuantity h)
    rw [if_neg hsame] at hstart ⊢
    rw [EStateM.run_bind] at hstart
    simp only [EStateM.run_get, hag.contains hlay] at hstart
    by_cases hcon : r.contains newId = true
    · rw [if_pos hcon] at hstart ⊢
      exact Or.inl (Returns.refused h hstart)
    rw [if_neg hcon] at hstart ⊢
    rw [run_bind_ok (readNode_ok ro.node), ro.onSide] at hstart
    have hadd : r.add newId o.reference.side newPrice newQuantity =
        (true, (r.setOrder newId ⟨o.reference.side, newPrice, newQuantity⟩).pushBack
          o.reference.side newPrice newId) := if_neg (not_or.mpr ⟨h0, hcon⟩)
    rcases add_simulates al newId o.reference.side newPrice newQuantity h with
      ⟨b₁, run₁, hrep₁, htight₁, _⟩ | ⟨b₁, run₁, hrep₁, hf⟩
    · rw [hadd] at run₁ hrep₁ htight₁ ⊢
      obtain ⟨b₂, run₂, hrep₂, htight₂, _⟩ := erase_returns oldId hrep₁
      -- the old order is still there
      have herase : (((r.setOrder newId ⟨o.reference.side, newPrice, newQuantity⟩).pushBack
          o.reference.side newPrice newId).erase oldId).1 = true := by
        unfold ReferenceBook.erase
        have : ((r.setOrder newId ⟨o.reference.side, newPrice, newQuantity⟩).pushBack
            o.reference.side newPrice newId).orders.lookup oldId = some o.reference :=
          (Finmap.lookup_insert_of_ne _ hsame).trans hr
        rw [this]
      refine Or.inl ⟨b₂, ?_, hrep₂, htight₂ ∘ htight₁, fun e => ?_⟩
      · rw [hstart, run_bind_ok run₁, ← run₂]
        rfl
      · rw [herase] at e; cases e
    · exact Or.inr ⟨b₁, by rw [hstart, run_bind_error run₁], hrep₁, hf⟩

theorem execute_returns (id : OrderId) (quantity : Quantity) (h : Represents b r) :
    Returns (execute id quantity) b r (r.execute id quantity) := cancel_returns id quantity h

/-! ## Reliable allocators -/

theorem returns_of_reliable {m : Book Bool} {place : Placement} {result : Bool × ReferenceBook}
    (h : Returns m b r result ∨ Throws (.reliable place) m b r) : Returns m b r result := by
  rcases h with hret | ⟨_, _, _, site, hf⟩
  · exact hret
  · simp at hf

theorem add_returns (place : Placement) (id : OrderId) (side : Side) (price : Price)
    (quantity : Quantity) (h : Represents b r) :
    Returns (add (.reliable place) id side price quantity) b r (r.add id side price quantity) :=
  returns_of_reliable (add_simulates _ id side price quantity h)

theorem replace_returns (place : Placement) (oldId newId : OrderId) (newPrice : Price)
    (newQuantity : Quantity) (h : Represents b r) :
    Returns (replace (.reliable place) oldId newId newPrice newQuantity) b r
      (r.replace oldId newId newPrice newQuantity) :=
  returns_of_reliable (replace_simulates _ oldId newId newPrice newQuantity h)

/-- The empty book represents the empty reference book. -/
theorem empty_represents : Represents empty .empty := by
  refine ⟨fun _ _ => [], ?_, ⟨fun _ => PriceIndex.reset_wf, fun _ price => ?_⟩, ?_⟩
  · constructor
    case linked => exact fun _ _ => linked_nil
    all_goals simp [empty]
  · simp [empty, PriceIndex.not_active_reset price]
  · exact ⟨fun _ => rfl, rfl⟩

theorem empty_tight : Tight empty .empty := by
  intro side price p hp
  simp [empty] at hp

end OrderBook

end Lob
