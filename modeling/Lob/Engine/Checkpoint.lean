import Lob.Engine.Executions

/-!
# Rebuilding an engine

An engine has no memory beyond its books. A feed that opens its instruments and then displays its
orders, those of a level oldest first, rebuilds it, and no later call tells the two apart.
-/

namespace Basis

/-- What a list put together from parts has of one part. -/
theorem filter_flatMap {α β : Type} [DecidableEq α] {l : List α} {f : α → List β} {p : β → Bool}
    {a : α} (hnodup : l.Nodup) (hown : ∀ b ∈ f a, p b = true)
    (hother : ∀ a', a' ≠ a → ∀ b ∈ f a', p b = false) :
    (l.flatMap f).filter p = if a ∈ l then f a else [] := by
  induction l with
  | nil => rfl
  | cons a' l ih =>
    rw [List.flatMap_cons, List.filter_append, ih hnodup.of_cons]
    by_cases heq : a' = a
    · subst heq
      rw [List.filter_eq_self.mpr hown, if_neg (List.nodup_cons.mp hnodup).1,
        if_pos List.mem_cons_self, List.append_nil]
    · have hnone : (f a').filter p = [] := by
        rw [List.filter_eq_nil_iff]
        intro b hb
        rw [hother a' heq b hb]
        exact Bool.false_ne_true
      rw [hnone, List.nil_append]
      simp [Ne.symm heq]

end Basis

namespace Lob

open Basis ReferenceEngine

/-! ## Books -/

namespace ReferenceBook

variable {quantity : Quantity}

/-- An order that comes and goes leaves an empty book. -/
theorem erase_add_empty (id : OrderId) (side : Side) (price : Price) (hquantity : quantity ≠ 0) :
    (empty.add id side price quantity).1 = true ∧
      ((empty.add id side price quantity).2.erase id).1 = true ∧
      ((empty.add id side price quantity).2.erase id).2 = empty := by
  have hok : (empty.add id side price quantity).1 = true := by
    unfold add
    rw [if_neg]
    rintro (hzero | hcon)
    · exact hquantity hzero
    · cases hcon
  have hwf := WF.empty.add hok
  have hlook : (empty.add id side price quantity).2.orders.lookup id = some ⟨side, price, quantity⟩ := by
    rw [(add_accepted hok).2.2]
    exact Finmap.lookup_insert _
  have herase := erase_of_lookup hlook
  have hgone : ((empty.add id side price quantity).2.erase id).2.WF := by
    rw [herase]
    exact hwf.erase hlook
  refine ⟨hok, by rw [herase], WF.empty.ext hgone fun side' price' => ?_⟩
  have hviews := hwf.erase_views (by rw [herase]) side' price'
  rw [hviews, WF.empty.add_views hok]
  split_ifs
  · simp [views_eq_nil, empty]
  · rfl

end ReferenceBook

/-! ## Lists of orders -/

/-- An order and its locate. -/
abbrev PlacedOrder := StockLocate × OrderView

def atLevel (locate : StockLocate) (side : Side) (price : Price) (x : PlacedOrder) : Bool :=
  x.1 = locate ∧ x.2.side = side ∧ x.2.price = price

/-- The orders of every level, oldest first. -/
def Lists (views : StockLocate → Side → Price → List OrderView) (orders : List PlacedOrder) : Prop :=
  ∀ locate side price, (orders.filter (atLevel locate side price)).map Prod.snd =
    views locate side price

namespace ReferenceEngine

variable {m n : ReferenceEngine} {built rest orders : List PlacedOrder} {x : PlacedOrder}

def views (m : ReferenceEngine) (locate : StockLocate) : Side → Price → List OrderView :=
  (m.book locate).views

theorem mem_of_lists (h : Lists m.views orders) (hx : x ∈ orders) :
    x.2 ∈ m.views x.1 x.2.side x.2.price := by
  rw [← h]
  exact List.mem_map_of_mem (List.mem_filter.mpr ⟨hx, by simp [atLevel]⟩)

theorem lookup_of_lists (hwf : ∀ locate, (m.book locate).WF) (h : Lists m.views orders)
    (hx : x ∈ orders) : x.2.quantity ≠ 0 ∧
      (m.book x.1).orders.lookup x.2.orderId = some ⟨x.2.side, x.2.price, x.2.quantity⟩ := by
  have hv : x.2 ∈ (m.book x.1).views x.2.side x.2.price := mem_of_lists h hx
  obtain ⟨_, _, hquantity, _, hlook⟩ := (hwf x.1).mem_views hv
  exact ⟨hquantity, hlook⟩

/-- The list has an order once. -/
theorem fresh_of_lists (hwf : ∀ locate, (m.book locate).WF) (h : Lists m.views orders) :
    orders.Pairwise fun x y => x.1 = y.1 → x.2.orderId ≠ y.2.orderId := by
  rw [List.pairwise_iff_forall_sublist]
  intro x y hsub hlocate hid
  obtain ⟨locate, v⟩ := x
  obtain ⟨locate', w⟩ := y
  obtain rfl : locate = locate' := hlocate
  have hv := (lookup_of_lists hwf h (hsub.subset List.mem_cons_self)).2
  have hw := (lookup_of_lists hwf h (hsub.subset (List.mem_cons_of_mem _ List.mem_cons_self))).2
  have hsame : v = w := by
    obtain ⟨id, side, price, quantity⟩ := v
    obtain ⟨id', side', price', quantity'⟩ := w
    obtain rfl : id = id' := hid
    rw [hv] at hw
    cases hw
    rfl
  rw [← hsame] at hsub
  have hlevel := (hsub.filter (atLevel locate v.side v.price)).map Prod.snd
  rw [h locate v.side v.price] at hlevel
  have hids := hlevel.map OrderView.orderId
  unfold views at hids
  rw [(hwf locate).map_views] at hids
  refine List.nodup_iff_sublist.mp ((hwf locate).nodup v.side v.price) v.orderId ?_
  simpa [atLevel] using hids

/-! ## Displaying the orders -/

/-- The books of `m` with the orders `built` so far. -/
structure Building (m : ReferenceEngine) (built : List PlacedOrder) (n : ReferenceEngine) : Prop where
  limits : n.limits = m.limits
  lookup : ∀ locate, (n.books.lookup locate).isSome = (m.books.lookup locate).isSome
  wf : ∀ locate, (n.book locate).WF
  views : Lists n.views built
  count : n.restingOrders = built.length

/-- The engine with one order more. -/
def display (n : ReferenceEngine) (x : PlacedOrder) : ReferenceEngine :=
  n.setBook x.1 ((n.book x.1).add x.2.orderId x.2.side x.2.price x.2.quantity).2

theorem Building.add_accepted (h : Building m built n) (hquantity : x.2.quantity ≠ 0)
    (hnew : ∀ y ∈ built, y.1 = x.1 → y.2.orderId ≠ x.2.orderId) :
    ((n.book x.1).add x.2.orderId x.2.side x.2.price x.2.quantity).1 = true := by
  unfold ReferenceBook.add
  rw [if_neg]
  rintro (hzero | hcon)
  · exact hquantity hzero
  · obtain ⟨order, hid⟩ := Option.isSome_iff_exists.mp hcon
    have hv := (h.wf x.1).lookup_iff.mp hid
    change _ ∈ n.views x.1 order.side order.price at hv
    rw [← h.views] at hv
    obtain ⟨y, hy, hy'⟩ := List.mem_map.mp hv
    obtain ⟨hbuilt, hlevel⟩ := List.mem_filter.mp hy
    refine hnew y hbuilt (of_decide_eq_true hlevel).1 ?_
    rw [hy']

theorem Building.display (h : Building m built n) (hbook : (m.books.lookup x.1).isSome)
    (hok : ((n.book x.1).add x.2.orderId x.2.side x.2.price x.2.quantity).1 = true) :
    Building m (built ++ [x]) (n.display x) where
  limits := h.limits
  lookup locate := by
    show ((n.setBook x.1 _).books.lookup locate).isSome = _
    rw [setBook_lookup]
    split_ifs with heq
    · rw [heq, hbook]
      rfl
    · exact h.lookup locate
  wf locate := by
    unfold ReferenceEngine.display
    by_cases heq : locate = x.1
    · rw [heq, setBook_book]
      exact (h.wf x.1).add hok
    · rw [((SameElsewhere.refl x.1 n).setBook _).book heq]
      exact h.wf locate
  views locate side price := by
    rw [List.filter_append, List.map_append, h.views]
    unfold ReferenceEngine.views ReferenceEngine.display
    by_cases heq : locate = x.1
    · rw [heq, setBook_book, (h.wf x.1).add_views hok]
      by_cases hplace : side = x.2.side ∧ price = x.2.price
      · simp [atLevel, hplace]
      · rw [if_neg hplace]
        simp only [List.append_cancel_left_eq, List.map_eq_nil_iff, List.filter_eq_nil_iff]
        intro y hy hlevel
        obtain rfl := List.mem_singleton.mp hy
        exact hplace ⟨(of_decide_eq_true hlevel).2.1.symm, (of_decide_eq_true hlevel).2.2.symm⟩
    · rw [((SameElsewhere.refl x.1 n).setBook _).book heq]
      simp [atLevel, Ne.symm heq]
  count := by
    have hsum := restingOrders_setBook_book (m := n) x.1
      ((n.book x.1).add x.2.orderId x.2.side x.2.price x.2.quantity).2
    have hcount := ReferenceBook.add_orderCount hok
    have hbuilt := h.count
    unfold ReferenceEngine.display
    rw [List.length_append, List.length_singleton]
    omega

/-- All of the orders. -/
theorem Building.eq (h : Building m orders n) (hlists : Lists m.views orders)
    (hwf : ∀ locate, (m.book locate).WF) : n = m := by
  have hbooks : n.books = m.books := by
    apply Finmap.ext_lookup
    intro locate
    have hsome := h.lookup locate
    have hbook : n.book locate = m.book locate := by
      refine (hwf locate).ext (h.wf locate) fun side price => ?_
      exact (h.views locate side price).symm.trans (hlists locate side price)
    cases hm : m.books.lookup locate with
    | none =>
      rw [hm] at hsome
      exact Option.isNone_iff_eq_none.mp (Option.isSome_eq_false_iff.mp hsome)
    | some r =>
      rw [hm] at hsome
      obtain ⟨r', hn⟩ := Option.isSome_iff_exists.mp hsome
      rw [book_of_lookup hm, book_of_lookup hn] at hbook
      rw [hn, hbook]
  obtain ⟨books, limits⟩ := m
  obtain ⟨books', limits'⟩ := n
  obtain rfl : books' = books := hbooks
  obtain rfl : limits' = limits := h.limits
  rfl

/-- What the list says of the order that is displayed next. -/
structure Next (m : ReferenceEngine) (built : List PlacedOrder) (x : PlacedOrder) : Prop where
  quantity : x.2.quantity ≠ 0
  book : (m.books.lookup x.1).isSome
  fresh : ∀ y ∈ built, y.1 = x.1 → y.2.orderId ≠ x.2.orderId

theorem next_of_lists (hwf : ∀ locate, (m.book locate).WF)
    (hlists : Lists m.views (built ++ x :: rest)) : Next m built x := by
  have hx : x ∈ built ++ x :: rest := List.mem_append_right _ List.mem_cons_self
  obtain ⟨hquantity, hlook⟩ := lookup_of_lists hwf hlists hx
  refine ⟨hquantity, ?_, fun y hy => ?_⟩
  · by_contra hnone
    rw [Bool.not_eq_true, Option.isSome_eq_false_iff, Option.isNone_iff_eq_none] at hnone
    rw [book_of_lookup_none hnone] at hlook
    cases hlook
  · exact (List.pairwise_append.mp (fresh_of_lists hwf hlists)).2.2 y hy x List.mem_cons_self

/-- The list is as long as there are orders. -/
theorem length_of_lists (hwf : ∀ locate, (m.book locate).WF) (h : Building m built n)
    (hlists : Lists m.views (built ++ rest)) : (built ++ rest).length = m.restingOrders := by
  induction rest generalizing built n with
  | nil =>
    rw [List.append_nil] at hlists ⊢
    rw [← h.count, h.eq hlists hwf]
  | cons x rest ih =>
    have hnext := next_of_lists hwf hlists
    have hdisplay := h.display hnext.book (h.add_accepted hnext.quantity hnext.fresh)
    rw [List.append_cons] at hlists ⊢
    exact ih hdisplay hlists

end ReferenceEngine

/-! ## The feed -/

/-- The event displays the order. -/
def Shows (x : PlacedOrder) : ItchEvent → Prop :=
  Displays x.1 x.2.orderId x.2.side x.2.price x.2.quantity

/-- An order comes and goes for every instrument. -/
inductive Opens : List StockLocate → List ItchEvent → Prop
  | nil : Opens [] []
  | cons {locate : StockLocate} {id : OrderId} {side : Side} {price : Price} {shares : Quantity}
      {first : ItchEvent} {second : OrderDelete} {locates : List StockLocate} {events : List ItchEvent}
      (hfirst : Displays locate id side price shares first) (hshares : shares ≠ 0)
      (hlocate : second.header.stockLocate = locate) (hid : second.orderReference = id)
      (rest : Opens locates events) :
      Opens (locate :: locates) (first :: .orderDelete second :: events)

namespace ReferenceEngine

variable {m n : ReferenceEngine} {built rest orders : List PlacedOrder} {opened locates : List StockLocate}
  {events : List ItchEvent} {locate : StockLocate}

/-- **The orders are displayed** one after the other. -/
theorem Building.replay (h : Building m built n) (hwf : ∀ locate, (m.book locate).WF)
    (hroom : m.restingOrders ≤ m.limits.maxRestingOrders.toNat) (hevents : List.Forall₂ Shows rest events)
    (hlists : Lists m.views (built ++ rest)) :
    n.replay events = m ∧ ∀ result ∈ n.results events, result.changedBook = true := by
  induction hevents generalizing built n with
  | nil =>
    rw [List.append_nil] at hlists
    exact ⟨h.eq hlists hwf, nofun⟩
  | @cons x event rest events hevent _ ih =>
    have hnext := next_of_lists hwf hlists
    have hok := h.add_accepted hnext.quantity hnext.fresh
    have hdisplay := h.display hnext.book hok
    have hlength := length_of_lists hwf h hlists
    have hcan : n.CanCreateOrder x.1 := by
      refine ⟨?_, Or.inl (by rw [h.lookup]; exact hnext.book)⟩
      rw [h.limits, h.count]
      rw [List.length_append, List.length_cons] at hlength
      omega
    have happly : n.apply event = (⟨.Added, x.1, true⟩, n.display x) := by
      rw [Displays.apply hevent]
      unfold ReferenceEngine.add
      rw [if_pos hcan, if_pos hok]
      rfl
    rw [List.append_cons] at hlists
    obtain ⟨hreplay, hresults⟩ := ih hdisplay hlists
    refine ⟨?_, fun result hresult => ?_⟩
    · show (n.apply event).2.replay events = m
      rw [happly]
      exact hreplay
    · change result ∈ (n.apply event).1 :: (n.apply event).2.results events at hresult
      rw [happly] at hresult
      rcases List.mem_cons.mp hresult with rfl | hrest
      · rfl
      · exact hresults result hrest

/-! ## Opening the instruments -/

/-- The instruments `opened` so far have empty books. -/
structure Opened (m : ReferenceEngine) (opened : List StockLocate) (n : ReferenceEngine) : Prop where
  limits : n.limits = m.limits
  lookup : ∀ locate, n.books.lookup locate = if locate ∈ opened then some .empty else none

theorem Opened.restingOrders (h : Opened m opened n) : n.restingOrders = 0 := by
  unfold ReferenceEngine.restingOrders total
  refine Finset.sum_eq_zero fun locate _ => ?_
  rw [h.lookup]
  split_ifs <;> rfl

/-- The caps admit an instrument that `m` has. -/
theorem Opened.canCreateOrder (h : Opened m opened n) (hnew : locate ∉ opened)
    (hbooks : ∀ locate' ∈ locate :: opened, (m.books.lookup locate').isSome)
    (hroom : 0 < m.limits.maxRestingOrders.toNat)
    (hinstruments : size m.books ≤ m.limits.maxInstruments.toNat) : n.CanCreateOrder locate := by
  have hnone : n.books.lookup locate = none := by rw [h.lookup, if_neg hnew]
  have hsize : size (n.books.insert locate .empty) ≤ size m.books := by
    refine size_le_size fun locate' hlocate' => ?_
    rw [lookup_insert_ite] at hlocate'
    split_ifs at hlocate' with heq
    · rw [heq]
      exact hbooks locate List.mem_cons_self
    · rw [h.lookup] at hlocate'
      split_ifs at hlocate' with hopen
      · exact hbooks locate' (List.mem_cons_of_mem _ hopen)
      · cases hlocate'
  rw [size_insert_new _ hnone] at hsize
  unfold ReferenceEngine.CanCreateOrder
  rw [h.restingOrders, h.limits]
  exact ⟨hroom, Or.inr (by omega)⟩

/-- **The instruments are opened** one after the other. -/
theorem Opened.replay (h : Opened m opened n) (hroom : 0 < m.limits.maxRestingOrders.toNat)
    (hinstruments : size m.books ≤ m.limits.maxInstruments.toNat) (hopens : Opens locates events)
    (hnodup : (opened ++ locates).Nodup)
    (hbooks : ∀ locate ∈ opened ++ locates, (m.books.lookup locate).isSome) :
    Opened m (opened ++ locates) (n.replay events) ∧
      ∀ result ∈ n.results events, result.changedBook = true := by
  induction hopens generalizing opened n with
  | nil =>
    rw [List.append_nil]
    exact ⟨h, nofun⟩
  | @cons locate id side price shares first second locates events hfirst hshares hlocate hid _ ih =>
    have hnew : locate ∉ opened := fun hmem =>
      (List.nodup_append.mp hnodup).2.2 locate hmem locate List.mem_cons_self rfl
    have hcan : n.CanCreateOrder locate := by
      refine h.canCreateOrder hnew (fun locate' hlocate' => hbooks locate' ?_) hroom hinstruments
      rw [List.mem_append]
      rcases List.mem_cons.mp hlocate' with heq | hopen
      · rw [heq]
        exact Or.inr List.mem_cons_self
      · exact Or.inl hopen
    have hbook : n.book locate = .empty :=
      book_of_lookup_none (by rw [h.lookup, if_neg hnew])
    obtain ⟨hok, herase, hempty⟩ :=
      ReferenceBook.erase_add_empty id side price hshares
    have happly : n.apply first = (⟨.Added, locate, true⟩,
        n.setBook locate (ReferenceBook.empty.add id side price shares).2) := by
      rw [hfirst.apply]
      unfold ReferenceEngine.add
      rw [if_pos hcan, hbook, if_pos hok]
    have hdelete : (n.setBook locate (ReferenceBook.empty.add id side price shares).2).apply
        (.orderDelete second) = (⟨.Deleted, locate, true⟩, n.setBook locate .empty) := by
      show ReferenceEngine.update _ second.header.stockLocate _ _ = _
      rw [hlocate, hid]
      unfold ReferenceEngine.update
      rw [setBook_lookup, if_pos rfl]
      simp only [if_pos herase, hempty, setBook_setBook]
    have hopened : Opened m (opened ++ [locate]) (n.setBook locate .empty) := by
      refine ⟨h.limits, fun locate' => ?_⟩
      rw [setBook_lookup, h.lookup]
      by_cases heq : locate' = locate
      · simp [heq]
      · simp [heq]
    rw [List.append_cons] at hnodup hbooks ⊢
    obtain ⟨hrest, hresults⟩ := ih hopened hnodup hbooks
    have hreplay : n.replay (first :: .orderDelete second :: events) =
        (n.setBook locate .empty).replay events := by
      show ((n.apply first).2.apply (.orderDelete second)).2.replay events = _
      rw [happly, hdelete]
    have hresults' : n.results (first :: .orderDelete second :: events) =
        ⟨.Added, locate, true⟩ :: ⟨.Deleted, locate, true⟩ ::
          (n.setBook locate .empty).results events := by
      show (n.apply first).1 :: ((n.apply first).2.apply (.orderDelete second)).1 ::
        ((n.apply first).2.apply (.orderDelete second)).2.results events = _
      rw [happly, hdelete]
    rw [hreplay, hresults']
    refine ⟨hrest, fun result hresult => ?_⟩
    rcases List.mem_cons.mp hresult with rfl | hresult
    · rfl
    rcases List.mem_cons.mp hresult with rfl | hresult
    · rfl
    · exact hresults result hresult

/-! ## A list of what rests -/

/-- With no room for an order there is no book. -/
def Admits (m : ReferenceEngine) : Prop :=
  ∀ locate, (m.books.lookup locate).isSome → 0 < m.limits.maxRestingOrders.toNat

theorem Admits.setBook (h : Admits m) (hbook : (m.books.lookup locate).isSome ∨
    0 < m.limits.maxRestingOrders.toNat) (r : ReferenceBook) : Admits (m.setBook locate r) := by
  intro locate' hsome
  rw [setBook_lookup] at hsome
  split_ifs at hsome with heq
  · exact hbook.elim (h locate) id
  · exact h locate' hsome

theorem Admits.update (h : Admits m) (action : ApplyAction)
    (operation : ReferenceBook → Bool × ReferenceBook) :
    Admits (m.update locate action operation).2 := by
  unfold ReferenceEngine.update
  cases hm : m.books.lookup locate with
  | none => exact h
  | some r =>
    simp only
    split_ifs
    · exact h.setBook (Or.inl (by rw [hm]; rfl)) _
    · exact h

theorem Admits.add (h : Admits m) (reference : OrderId) (side : Side) (price : Price)
    (shares : Quantity) : Admits (m.add locate reference side price shares).2 := by
  unfold ReferenceEngine.add
  by_cases hcan : m.CanCreateOrder locate
  · rw [if_pos hcan]
    exact h.setBook (Or.inr (Nat.zero_lt_of_lt hcan.1)) _
  · rw [if_neg hcan]
    exact h

theorem Admits.swept (h : Admits m) (side : Side) (reaches : Price → Bool) (quantity : Quantity) :
    Admits (m.swept locate side reaches quantity) := by
  intro locate' hsome
  rw [swept_isSome] at hsome
  rw [swept_limits]
  exact h locate' hsome

theorem Admits.call (h : Admits m) (call : EngineCall) : Admits (call.onReference m).2 := by
  cases call with
  | apply event =>
    cases event with
    | addOrder message => exact h.add _ _ _ _
    | addAttributedOrder message => exact h.add _ _ _ _
    | orderExecuted message => exact h.update _ _
    | orderExecutedWithPrice message => exact h.update _ _
    | orderCancel message => exact h.update _ _
    | orderDelete message => exact h.update _ _
    | orderReplace message => exact h.update _ _
    | _ => exact h
  | submitLimit locate orderId side limitPrice quantity output =>
    have hcases := submitLimit_cases m locate orderId side limitPrice quantity output
    have hswept : Admits (m.swept locate side (reach true side limitPrice) quantity) := h.swept _ _ _
    show Admits (m.submitLimit locate orderId side limitPrice quantity output).2
    generalize m.submitLimit locate orderId side limitPrice quantity output = out at hcases ⊢
    obtain ⟨⟨result, output'⟩, m'⟩ := out
    simp only at hcases ⊢
    cases hcases with
    | refused => exact h
    | filled _ => exact hswept
    | capped _ _ => exact hswept
    | rests _ hcan _ => exact hswept.setBook (Or.inr (Nat.zero_lt_of_lt hcan.1)) _
  | submitMarket locate side quantity output =>
    show Admits (m.submitMarket locate side quantity output).2
    unfold ReferenceEngine.submitMarket
    split_ifs
    · exact h
    · exact h.swept _ _ _
  | clear => exact fun _ hsome => nomatch hsome

/-- Every level of the instruments. -/
def levelsOf (instruments : List StockLocate) : List (StockLocate × Side × Price) :=
  instruments.product ([Side.Buy, Side.Sell].product allPrices)

/-- The orders of `m`, level by level. -/
def ordersOf (m : ReferenceEngine) (instruments : List StockLocate) : List PlacedOrder :=
  (levelsOf instruments).flatMap fun level => (m.views level.1 level.2.1 level.2.2).map (Prod.mk level.1)

theorem ordersOf_lists (hwf : ∀ locate, (m.book locate).WF) {instruments : List StockLocate}
    (hnodup : instruments.Nodup)
    (hall : ∀ locate, (m.books.lookup locate).isSome → locate ∈ instruments) :
    Lists m.views (m.ordersOf instruments) := by
  intro locate side price
  have hlevels : (levelsOf instruments).Nodup := by
    refine hnodup.product (List.Nodup.product (by decide) (allPrices_pairwise.imp fun hlt => ?_))
    rintro rfl
    exact BitVec.lt_irrefl _ hlt
  have hlevel : ∀ level : StockLocate × Side × Price,
      ∀ x ∈ (m.views level.1 level.2.1 level.2.2).map (Prod.mk level.1),
        x.1 = level.1 ∧ x.2.side = level.2.1 ∧ x.2.price = level.2.2 := by
    intro level x hx
    obtain ⟨v, hv, rfl⟩ := List.mem_map.mp hx
    obtain ⟨hside, hprice, _⟩ := (hwf level.1).mem_views hv
    exact ⟨rfl, hside, hprice⟩
  unfold ordersOf
  rw [filter_flatMap (a := (locate, side, price)) (p := atLevel locate side price) hlevels
    (fun x hx => decide_eq_true (hlevel _ x hx)) ?_]
  · by_cases hmem : locate ∈ instruments
    · have hin : (locate, side, price) ∈ levelsOf instruments :=
        List.mem_product.mpr ⟨hmem, List.mem_product.mpr ⟨by cases side <;> simp, mem_allPrices price⟩⟩
      rw [if_pos hin, List.map_map]
      exact List.map_id _
    · have hout : (locate, side, price) ∉ levelsOf instruments :=
        fun hin => hmem (List.mem_product.mp hin).1
      have hnone : m.books.lookup locate = none := by
        by_contra hsome
        exact hmem (hall locate (Option.isSome_iff_ne_none.mpr hsome))
      rw [if_neg hout]
      unfold ReferenceEngine.views
      rw [book_of_lookup_none hnone, ReferenceBook.views_eq_nil rfl]
      rfl
  · intro level hne x hx
    refine decide_eq_false fun hat => hne ?_
    obtain ⟨hlocate, hside, hprice⟩ := hlevel level x hx
    exact Prod.ext (hlocate.symm.trans hat.1)
      (Prod.ext (hside.symm.trans hat.2.1) (hprice.symm.trans hat.2.2))

end ReferenceEngine

/-! ## Rebuilding -/

theorem Opens.length {instruments : List StockLocate} {events : List ItchEvent}
    (h : Opens instruments events) : events.length = 2 * instruments.length := by
  induction h with
  | nil => rfl
  | cons _ _ _ _ _ ih =>
    rw [List.length_cons, List.length_cons, List.length_cons, ih]
    omega

/-- Every instrument can be opened, and every order displayed. -/
theorem exists_opens (instruments : List StockLocate) : ∃ events, Opens instruments events := by
  induction instruments with
  | nil => exact ⟨[], .nil⟩
  | cons locate instruments ih =>
    obtain ⟨events, h⟩ := ih
    exact ⟨.addOrder ⟨⟨locate, 0, 0⟩, 0, .Buy, 1, Vector.replicate 8 0, 0⟩ ::
      .orderDelete ⟨⟨locate, 0, 0⟩, 0⟩ :: events,
      .cons ⟨rfl, rfl, rfl, rfl, rfl⟩ (show (1 : Quantity) ≠ 0 by decide) rfl rfl h⟩

theorem exists_shows (orders : List PlacedOrder) : ∃ events, List.Forall₂ Shows orders events := by
  induction orders with
  | nil => exact ⟨[], .nil⟩
  | cons x orders ih =>
    obtain ⟨events, h⟩ := ih
    exact ⟨.addOrder ⟨⟨x.1, 0, 0⟩, x.2.orderId, x.2.side, x.2.quantity, Vector.replicate 8 0,
      x.2.price⟩ :: events, .cons ⟨rfl, rfl, rfl, rfl, rfl⟩ h⟩

namespace MatchingEngine

/-- The instruments of an engine, and its orders, those of a level oldest first. -/
structure Checkpoint (e : MatchingEngine) (instruments : List StockLocate)
    (orders : List PlacedOrder) : Prop where
  nodup : instruments.Nodup
  instruments : ∀ locate, locate ∈ instruments ↔ (e.findBook locate).isSome
  orders : Lists e.views orders

/-- The feed of a checkpoint. -/
def Feeds (instruments : List StockLocate) (orders : List PlacedOrder) (feed : List ItchEvent) : Prop :=
  ∃ openings displays, Opens instruments openings ∧ List.Forall₂ Shows orders displays ∧
    feed = openings ++ displays

/-- No calls tell the engines apart. -/
def Indistinguishable (e e' : MatchingEngine) : Prop :=
  ∀ calls calls' : List (Placement × EngineCall), calls'.map Prod.snd = calls.map Prod.snd →
    ∃ results f f', (runCalls calls).run e = .ok results f ∧
      (runCalls calls').run e' = .ok results f' ∧ SameBooks f f'

variable {limits : EngineLimits} {e e' : MatchingEngine} {m : ReferenceEngine}
  {instruments : List StockLocate} {orders : List PlacedOrder}

/-- Engines with the same reference engine are the same to their callers. -/
theorem Represents.indistinguishable (h : Represents e m) (h' : Represents e' m) :
    Indistinguishable e e' := by
  intro calls calls' hcalls
  have hkeeps : ∀ (calls : List (Placement × EngineCall)) {e : MatchingEngine}, Represents e m →
      ∃ f, (runCalls calls).run e = .ok (m.runCalls (calls.map Prod.snd)).1 f ∧
        Represents f (m.runCalls (calls.map Prod.snd)).2 := by
    intro calls e h
    refine runCalls_keeps (P := fun _ e m => Represents e m) (p := fun _ => True)
      (fun place call _ h => call_simulates h place call) calls (fun _ _ => trivial) [] h
  obtain ⟨f, run, hf⟩ := hkeeps calls h
  obtain ⟨f', run', hf'⟩ := hkeeps calls' h'
  rw [hcalls] at run' hf'
  exact ⟨_, f, f', run, run', hf.sameBooks hf'⟩

theorem Holds.views_funext (h : Holds e m) : e.views = m.views := by
  funext locate side price
  exact h.views_eq locate side price

theorem Reachable.admits (h : Reachable limits e) :
    ∃ m, Represents e m ∧ ReferenceEngine.Bounded limits m ∧ m.Admits := by
  obtain ⟨calls, results, run⟩ := h
  have hstart : (ReferenceEngine.new limits).Admits := fun _ hsome => nomatch hsome
  obtain ⟨e', run', hrep, hbounded, hadmits⟩ := runCalls_keeps
    (P := fun _ e m => Represents e m ∧ ReferenceEngine.Bounded limits m ∧ m.Admits)
    (p := fun _ => True) (fun place call _ h => by
      obtain ⟨e', run, hrep⟩ := call_simulates h.1 place call
      exact ⟨e', run, hrep, call.bounded h.2.1, h.2.2.call call⟩)
    calls (fun _ _ => trivial) []
    ⟨new_represents limits, ReferenceEngine.new_bounded limits, hstart⟩
  rw [run] at run'
  cases run'
  exact ⟨_, hrep, hbounded, hadmits⟩

/-- **A checkpoint** rebuilds the reference engine. -/
theorem Checkpoint.replay (hc : Checkpoint e instruments orders) (h : Represents e m)
    (hbounded : ReferenceEngine.Bounded limits m) (hadmits : m.Admits) {feed : List ItchEvent}
    (hfeed : Feeds instruments orders feed) :
    (ReferenceEngine.new limits).replay feed = m ∧
      (∀ result ∈ (ReferenceEngine.new limits).results feed, result.changedBook = true) ∧
      feed.length = 2 * size m.books + m.restingOrders := by
  obtain ⟨openings, displays, hopens, hshows, rfl⟩ := hfeed
  have hlists : Lists m.views orders := by
    rw [← h.views_funext]
    exact hc.orders
  have hinstruments : ∀ locate, locate ∈ instruments ↔ (m.books.lookup locate).isSome := by
    intro locate
    rw [hc.instruments, h.isSome_findBook]
  have hroom := hbounded.restingOrders
  have hsize := hbounded.instruments
  have hlimits := hbounded.sameLimits
  rw [← hlimits] at hroom hsize ⊢
  have hopened : Opened m instruments ((ReferenceEngine.new m.limits).replay openings) ∧
      ∀ result ∈ (ReferenceEngine.new m.limits).results openings, result.changedBook = true := by
    have hstart : Opened m [] (ReferenceEngine.new m.limits) := ⟨rfl, fun _ => rfl⟩
    cases instruments with
    | nil =>
      cases hopens
      exact ⟨hstart, nofun⟩
    | cons locate instruments =>
      refine hstart.replay ?_ hsize hopens hc.nodup fun locate' hin => (hinstruments locate').mp hin
      exact hadmits locate ((hinstruments locate).mp List.mem_cons_self)
  set n := (ReferenceEngine.new m.limits).replay openings with hn
  have hempty : ∀ locate, n.book locate = .empty := by
    intro locate
    unfold ReferenceEngine.book
    rw [hopened.1.lookup]
    split_ifs <;> rfl
  have hbuilding : Building m [] n := by
    refine ⟨hopened.1.limits, fun locate => ?_, fun locate => ?_, fun locate side price => ?_,
      hopened.1.restingOrders⟩
    · rw [hopened.1.lookup]
      by_cases hin : locate ∈ instruments
      · rw [if_pos hin, (hinstruments locate).mp hin]
        rfl
      · rw [if_neg hin]
        have hnone := mt (hinstruments locate).mpr hin
        rw [Bool.not_eq_true] at hnone
        rw [hnone]
        rfl
    · rw [hempty]
      exact ReferenceBook.WF.empty
    · unfold ReferenceEngine.views
      rw [hempty, ReferenceBook.views_eq_nil rfl]
      rfl
  obtain ⟨hreplay, hresults⟩ := hbuilding.replay h.wf hroom hshows hlists
  have hkeys : instruments.toFinset = m.books.keys := by
    ext locate
    rw [List.mem_toFinset, hinstruments, mem_keys_iff]
  have hcount : size m.books = instruments.length := by
    unfold size
    rw [← hkeys, List.toFinset_card_of_nodup hc.nodup]
  have horders : orders.length = m.restingOrders := length_of_lists h.wf hbuilding hlists
  rw [replay_append, results_append, ← hn]
  refine ⟨hreplay, fun result hresult => ?_, ?_⟩
  · rcases List.mem_append.mp hresult with hresult | hresult
    · exact hopened.2 result hresult
    · exact hresults result hresult
  · rw [List.length_append, hopens.length, ← hshows.length_eq, horders, hcount]

/-- **An engine is its books.** Every reachable engine has a checkpoint; and whatever the order of its
instruments and of its levels, the feed of a checkpoint is accepted event by event by a fresh engine
with the same limits, which no later calls tell from the engine. It has two events for an instrument
and one for an order. -/
theorem checkpoint_rebuilds (h : Reachable limits e) :
    (∃ instruments orders feed, Checkpoint e instruments orders ∧ Feeds instruments orders feed) ∧
    ∀ instruments orders, Checkpoint e instruments orders →
      ∀ calls : List (Placement × ItchEvent), Feeds instruments orders (calls.map Prod.snd) →
        ∃ results e', (applyAll calls).run (new limits) = .ok results e' ∧
          (∀ result ∈ results, result.changedBook = true) ∧
          calls.length = 2 * e.instrumentCount + e.restingOrderCount.toNat ∧
          Indistinguishable e e' := by
  obtain ⟨m, hrep, hbounded, hadmits⟩ := h.admits
  constructor
  · have hkeys : ∀ locate, locate ∈ m.books.keys.toList ↔ (m.books.lookup locate).isSome := by
      intro locate
      rw [Finset.mem_toList, mem_keys_iff]
    have hlists := ordersOf_lists hrep.wf (Finset.nodup_toList m.books.keys)
      fun locate => (hkeys locate).mpr
    obtain ⟨openings, hopens⟩ := exists_opens m.books.keys.toList
    obtain ⟨displays, hshows⟩ := exists_shows (m.ordersOf m.books.keys.toList)
    refine ⟨_, _, _, ⟨Finset.nodup_toList _, fun locate => ?_, ?_⟩, openings, displays, hopens, hshows,
      rfl⟩
    · rw [hkeys, hrep.isSome_findBook]
    · rw [hrep.views_funext]
      exact hlists
  · intro instruments orders hc calls hfeed
    obtain ⟨hreplay, hresults, hlength⟩ := hc.replay hrep hbounded hadmits hfeed
    obtain ⟨e', run, hrep'⟩ := applyAll_simulates calls (new_represents limits)
    rw [hreplay] at hrep'
    rw [List.length_map] at hlength
    refine ⟨_, e', run, hresults, ?_, hrep.indistinguishable hrep'⟩
    rw [hlength, hrep.instrumentCount, hrep.count]

/-- The checkpoint of an engine with one ask. -/
theorem checkpoint_rebuilds_ask : ∃ e, Reachable {} e ∧ e.order 1 7 = some ⟨7, .Sell, 100, 10⟩ ∧
    ∃ instruments orders feed, Checkpoint e instruments orders ∧ Feeds instruments orders feed ∧
      ∃ results e', (applyAll (feed.map (Prod.mk Placement.bump))).run (new {}) = .ok results e' ∧
        Indistinguishable e e' := by
  obtain ⟨e, hreach, h⟩ := exists_reachable {}
    [.apply (.addOrder ⟨⟨1, 0, 0⟩, 7, .Sell, 10, Vector.replicate 8 65, 100⟩)]
  obtain ⟨⟨instruments, orders, feed, hc, hfeed⟩, hrebuilds⟩ := checkpoint_rebuilds hreach
  have hcalls : (feed.map (Prod.mk Placement.bump)).map Prod.snd = feed := by
    rw [List.map_map]
    exact List.map_id feed
  obtain ⟨results, e', run, _, _, hsame⟩ := hrebuilds instruments orders hc _ (hcalls.symm ▸ hfeed)
  exact ⟨e, hreach, by rw [h.order_eq]; decide, instruments, orders, feed, hc, hfeed, results, e', run,
    hsame⟩

end MatchingEngine

end Lob
