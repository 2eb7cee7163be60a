import Lob.Book.Groups
import Lob.Engine.Independence

/-!
# Orders do not interfere

An event concerns the order it names. So groups of orders that no replacement connects are separate
components of the engine, as the locates are: what becomes of a group does not depend on the events of
the others.
-/

namespace Lob

open Basis ReferenceEngine

/-! ## The group of an event -/

section Groups

variable {κ : Type} (group : StockLocate → OrderId → κ)

/-- The orders that an event names. -/
def ItchEvent.names : ItchEvent → List OrderId
  | .addOrder message => [message.orderReference]
  | .addAttributedOrder message => [message.orderReference]
  | .orderExecuted message => [message.orderReference]
  | .orderExecutedWithPrice message => [message.orderReference]
  | .orderCancel message => [message.orderReference]
  | .orderDelete message => [message.orderReference]
  | .orderReplace message => [message.originalOrderReference, message.newOrderReference]
  | _ => []

/-- The group of the first order that an event names. -/
def ItchEvent.groupOf (event : ItchEvent) : Option κ :=
  event.names.head?.map (group event.locate)

/-- All orders that the event names are of one group. -/
def ItchEvent.Within (event : ItchEvent) : Prop :=
  ∀ id ∈ event.names, event.groupOf group = some (group event.locate id)

variable {group} in
/-- An event that names one order. -/
theorem within_single {event : ItchEvent} {id : OrderId} (h : event.names = [id]) :
    event.Within group := by
  unfold ItchEvent.Within ItchEvent.groupOf
  rw [h]
  intro id' hid'
  rw [List.mem_singleton.mp hid']
  rfl

instance [DecidableEq κ] (event : ItchEvent) : Decidable (event.Within group) :=
  inferInstanceAs (Decidable (∀ id ∈ event.names, _ = _))

end Groups

namespace ReferenceEngine

variable {κ : Type} [DecidableEq κ] {group : StockLocate → OrderId → κ} {k k' : Option κ}
  {m m' : ReferenceEngine} {locate : StockLocate} {event : ItchEvent}

/-- The orders of a group at a locate; events that name no order are a group without orders. -/
def inGroup (group : StockLocate → OrderId → κ) (k : Option κ) (locate : StockLocate)
    (id : OrderId) : Bool := some (group locate id) = k

/-- The engines have the same orders of a group, queued in the same order. -/
def Agree (group : StockLocate → OrderId → κ) (k : Option κ) (m m' : ReferenceEngine) : Prop :=
  ∀ locate, (m.book locate).Agree (inGroup group k locate) (m'.book locate)

theorem Agree.symm (h : Agree group k m m') : Agree group k m' m := fun locate => (h locate).symm

/-- The event acts on the book of its locate, empty where it has none, and concerns there the orders
that it names. -/
structure Concerns (event : ItchEvent) (action : ApplyAction)
    (operation : ReferenceBook → Bool × ReferenceBook) : Prop where
  result : ∀ {m}, Roomy m → (m.apply event).1 =
    if (operation (m.book event.locate)).1 then ⟨action, event.locate, true⟩
    else rejected event.locate
  book : ∀ {m}, Roomy m → (m.apply event).2.book event.locate = (operation (m.book event.locate)).2
  capped : ∀ m : ReferenceEngine, (m.apply event).2 = m ∨
    (m.apply event).2.book event.locate = (operation (m.book event.locate)).2
  agreeOn : ∀ {p}, (∀ id ∈ event.names, p id = true) → ReferenceBook.AgreeOn p operation
  spares : ∀ {p}, (∀ id ∈ event.names, p id = false) → ReferenceBook.Spares p operation

theorem concerns_add {reference : OrderId} {side : Side} {price : Price} {shares : Quantity}
    (happly : ∀ m : ReferenceEngine, m.apply event = m.add event.locate reference side price shares)
    (hnames : event.names = [reference]) :
    Concerns event .Added fun r => r.add reference side price shares where
  result hm := by
    rw [happly]
    exact (add_eq _ _ _ _ (hm.canCreate _)).1
  book hm := by
    rw [happly]
    exact (add_eq _ _ _ _ (hm.canCreate _)).2
  capped m := by
    rw [happly]
    by_cases hcan : m.CanCreateOrder event.locate
    · exact Or.inr (add_eq _ _ _ _ hcan).2
    · unfold ReferenceEngine.add
      rw [if_neg hcan]
      exact Or.inl rfl
  agreeOn hp := ReferenceBook.agreeOn_add (hp _ (by rw [hnames]; exact List.mem_cons_self)) _ _ _
  spares hp := ReferenceBook.spares_add (hp _ (by rw [hnames]; exact List.mem_cons_self)) _ _ _

theorem concerns_update {action : ApplyAction} {operation : ReferenceBook → Bool × ReferenceBook}
    (happly : ∀ m : ReferenceEngine, m.apply event = m.update event.locate action operation)
    (hempty : operation .empty = (false, .empty))
    (hrefused : ∀ r, (operation r).1 = false → (operation r).2 = r)
    (hagree : ∀ {p}, (∀ id ∈ event.names, p id = true) → ReferenceBook.AgreeOn p operation)
    (hspare : ∀ {p}, (∀ id ∈ event.names, p id = false) → ReferenceBook.Spares p operation) :
    Concerns event action operation where
  result _ := by
    rw [happly]
    exact (update_eq _ _ _ hempty hrefused).1
  book _ := by
    rw [happly]
    exact (update_eq _ _ _ hempty hrefused).2
  capped _ := by
    rw [happly]
    exact Or.inr (update_eq _ _ _ hempty hrefused).2
  agreeOn := hagree
  spares := hspare

theorem concerns_reduce {action : ApplyAction} {reference : OrderId} {shares : Quantity}
    (happly : ∀ m : ReferenceEngine,
      m.apply event = m.update event.locate action fun r => r.cancel reference shares)
    (hnames : event.names = [reference]) : Concerns event action fun r => r.cancel reference shares :=
  concerns_update happly rfl (fun _ => ReferenceBook.cancel_refused)
    (fun hp => ReferenceBook.agreeOn_cancel (hp _ (by rw [hnames]; exact List.mem_cons_self)) _)
    fun hp => ReferenceBook.spares_cancel (hp _ (by rw [hnames]; exact List.mem_cons_self)) _

/-- **An event** names no order and is ignored, or it acts on the orders that it names. -/
theorem event_cases (event : ItchEvent) :
    (event.names = [] ∧ ∀ m : ReferenceEngine, m.apply event = (ignored event.locate, m)) ∨
      event.names ≠ [] ∧ ∃ action operation, Concerns event action operation := by
  cases event with
  | addOrder message => exact Or.inr ⟨nofun, _, _, concerns_add (fun _ => rfl) rfl⟩
  | addAttributedOrder message => exact Or.inr ⟨nofun, _, _, concerns_add (fun _ => rfl) rfl⟩
  | orderExecuted message => exact Or.inr ⟨nofun, _, _, concerns_reduce (fun _ => rfl) rfl⟩
  | orderExecutedWithPrice message => exact Or.inr ⟨nofun, _, _, concerns_reduce (fun _ => rfl) rfl⟩
  | orderCancel message => exact Or.inr ⟨nofun, _, _, concerns_reduce (fun _ => rfl) rfl⟩
  | orderDelete message =>
    exact Or.inr ⟨nofun, _, _, concerns_update (fun _ => rfl) rfl
      (fun _ => ReferenceBook.erase_refused)
      (fun hp => ReferenceBook.agreeOn_erase (hp _ List.mem_cons_self))
      fun hp => ReferenceBook.spares_erase (hp _ List.mem_cons_self)⟩
  | orderReplace message =>
    exact Or.inr ⟨nofun, _, _, concerns_update (fun _ => rfl) rfl
      (fun _ => ReferenceBook.replace_refused)
      (fun hp => ReferenceBook.agreeOn_replace (hp _ List.mem_cons_self)
        (hp _ (List.mem_cons_of_mem _ List.mem_cons_self)) _ _)
      fun hp => ReferenceBook.spares_replace (hp _ List.mem_cons_self)
        (hp _ (List.mem_cons_of_mem _ List.mem_cons_self)) _ _⟩
  | skippedMessage message =>
    obtain ⟨type, header⟩ := message
    cases header <;> exact Or.inl ⟨rfl, fun _ => rfl⟩
  | _ => exact Or.inl ⟨rfl, fun _ => rfl⟩

/-- An event of the group does the same to both. -/
theorem Agree.apply (h : Agree group k m m') (hm : Roomy m) (hm' : Roomy m')
    (hwithin : event.Within group) (hk : event.groupOf group = k) :
    (m'.apply event).1 = (m.apply event).1 ∧
      Agree group k (m.apply event).2 (m'.apply event).2 := by
  rcases event_cases event with ⟨_, happly⟩ | ⟨_, action, operation, hc⟩
  · rw [happly, happly]
    exact ⟨rfl, h⟩
  have hp : ∀ id ∈ event.names, inGroup group k event.locate id = true :=
    fun id hid => decide_eq_true ((hwithin id hid).symm.trans hk)
  obtain ⟨hresult, hbook⟩ := hc.agreeOn hp (h event.locate)
  refine ⟨by rw [hc.result hm', hc.result hm, hresult], fun locate => ?_⟩
  by_cases e : locate = event.locate
  · rw [e, hc.book hm, hc.book hm']
    exact hbook
  · rw [(apply_elsewhere event).book e, (apply_elsewhere event).book e]
    exact h locate

/-- An event of another group leaves this one alone. -/
theorem agree_apply (hwithin : event.Within group) (hk : event.groupOf group ≠ k) :
    Agree group k m (m.apply event).2 := by
  intro locate
  rcases event_cases event with ⟨_, happly⟩ | ⟨_, action, operation, hc⟩
  · rw [happly]
    exact ReferenceBook.Agree.refl _ _
  by_cases e : locate = event.locate
  · rw [e]
    rcases hc.capped m with hsame | hbook
    · rw [hsame]
      exact ReferenceBook.Agree.refl _ _
    · rw [hbook]
      refine hc.spares (fun id hid => decide_eq_false fun h => ?_) _
      exact hk ((hwithin id hid).trans h)
  · rw [(apply_elsewhere event).book e]
    exact ReferenceBook.Agree.refl _ _

/-! ## Groups as components -/

/-- What one group is at every locate. -/
def groupPart (group : StockLocate → OrderId → κ) (k : Option κ) (m : ReferenceEngine)
    (locate : StockLocate) : (OrderId → Option ReferenceOrder) × Queues OrderId :=
  (fun id => if inGroup group k locate id = true then (m.book locate).orders.lookup id else none,
    fun side price => ((m.book locate).levels side price).filter (inGroup group k locate))

theorem groupPart_eq_iff : groupPart group k m' = groupPart group k m ↔ Agree group k m m' := by
  constructor
  · intro h locate
    have hpart := congrFun h locate
    refine ⟨fun id hid => ?_, fun side price =>
      congrFun (congrFun (congrArg Prod.snd hpart) side) price⟩
    have hlook := congrFun (congrArg Prod.fst hpart) id
    unfold groupPart at hlook
    simpa only [hid, if_true] using hlook
  · intro h
    funext locate
    refine Prod.ext (funext fun id => ?_)
      (funext fun side => funext fun price => (h locate).levels side price)
    show ite _ _ _ = ite _ _ _
    split_ifs with hid
    · exact (h locate).lookup id hid
    · rfl

/-- The group of a call, where it is an event of one group. -/
def groupKey (group : StockLocate → OrderId → κ) : EngineCall → Option (Option κ)
  | .apply event => if event.Within group then some (event.groupOf group) else none
  | _ => none

theorem groupKey_apply (h : event.Within group) :
    groupKey group (.apply event) = some (event.groupOf group) := by
  unfold groupKey
  exact if_pos h

/-- The groups of orders as components. -/
abbrev groups (group : StockLocate → OrderId → κ) :
    Components ReferenceEngine EngineCall CallResult (Option κ)
      (StockLocate → (OrderId → Option ReferenceOrder) × Queues OrderId) :=
  byKey (groupKey group) (groupPart group)

theorem groups_key (call : EngineCall) : (groups group).key call = groupKey group call := rfl

theorem of_groups_key {call : EngineCall} (h : (groups group).key call = some k) :
    ∃ event : ItchEvent, call = .apply event ∧ event.Within group ∧ event.groupOf group = k := by
  rw [groups_key] at h
  unfold groupKey at h
  cases call with
  | apply event =>
    simp only at h
    split_ifs at h with hwithin
    exact ⟨event, rfl, hwithin, Option.some.inj h⟩
  | _ => cases h

/-- An engine without an order that the other has not has no more orders. -/
theorem restingOrders_le_of_lookup (h : ∀ locate id, ((m'.book locate).orders.lookup id).isSome →
    ((m.book locate).orders.lookup id).isSome) : m'.restingOrders ≤ m.restingOrders := by
  refine total_le_total fun locate => ?_
  have hbook : ∀ m : ReferenceEngine,
      (m.books.lookup locate).elim 0 ReferenceBook.orderCount = (m.book locate).orderCount := by
    intro m
    unfold ReferenceEngine.book
    cases m.books.lookup locate <;> rfl
  rw [hbook, hbook]
  exact size_le_size (h locate)

/-- An engine with the orders of one group only, as another has them, has no more orders. -/
theorem restingOrders_le_of_group (h : Agree group k m m')
    (hothers : ∀ k', k' ≠ k → Agree group k' (.new {}) m') :
    m'.restingOrders ≤ m.restingOrders := by
  refine restingOrders_le_of_lookup fun locate id hid => ?_
  by_cases e : some (group locate id) = k
  · rwa [(h locate).lookup id (decide_eq_true e)] at hid
  · rw [(hothers _ e locate).lookup id (decide_eq_true rfl)] at hid
    cases hid

theorem restingOrders_le_of_agree (h : ∀ k, Agree group k m m') :
    m'.restingOrders ≤ m.restingOrders := by
  refine restingOrders_le_of_lookup fun locate id hid => ?_
  rwa [(h (some (group locate id)) locate).lookup id (decide_eq_true rfl)] at hid

theorem groups_separate (group : StockLocate → OrderId → κ) :
    (groups group).Separate (fun m => m.limits = {}) Roomy (.new {}) where
  start := rfl
  keeps hinv hcall := by
    obtain ⟨event, rfl, _, _⟩ := of_groups_key hcall
    exact (apply_elsewhere event).limits.trans hinv
  good h hinv hpart hothers :=
    ⟨hinv, (restingOrders_le_of_group (groupPart_eq_iff.mp hpart) fun k' hne =>
      groupPart_eq_iff.mp (hothers k' hne)).trans_lt h.restingOrders⟩
  frame hcall hne := by
    obtain ⟨event, rfl, hwithin, hk⟩ := of_groups_key hcall
    exact groupPart_eq_iff.mpr (agree_apply hwithin fun e => hne (e.symm.trans hk))
  own hm hm' hcall hpart := by
    obtain ⟨event, rfl, hwithin, hk⟩ := of_groups_key hcall
    obtain ⟨hresult, hagree⟩ := (groupPart_eq_iff.mp hpart).apply hm hm' hwithin hk
    exact ⟨congrArg CallResult.applied hresult, groupPart_eq_iff.mpr hagree⟩

/-! ## What the groups show -/

/-- The orders of a group at a price, oldest first. -/
theorem filter_views (r : ReferenceBook) (locate : StockLocate) (side : Side) (price : Price) :
    ((r.views side price).filter fun v => inGroup group k locate v.orderId) =
      ((r.levels side price).filter (inGroup group k locate)).filterMap r.order := by
  unfold ReferenceBook.views
  rw [List.filter_filterMap, List.filterMap_filter]
  refine List.filterMap_congr fun id _ => ?_
  cases hv : r.order id with
  | none => simp
  | some v =>
    obtain rfl := ReferenceBook.orderId_of_order hv
    rfl

theorem Agree.order (h : Agree group k m m') {id : OrderId} (hid : inGroup group k locate id = true) :
    (m'.book locate).order id = (m.book locate).order id := by
  unfold ReferenceBook.order
  rw [(h locate).lookup id hid]

theorem Agree.views (h : Agree group k m m') (side : Side) (price : Price) :
    (((m'.book locate).views side price).filter fun v => inGroup group k locate v.orderId) =
      ((m.book locate).views side price).filter fun v => inGroup group k locate v.orderId := by
  rw [filter_views, filter_views, (h locate).levels]
  exact List.filterMap_congr fun id hid => h.order (List.mem_filter.mp hid).2

end ReferenceEngine

/-! ## The engine -/

namespace MatchingEngine

variable {κ : Type} [DecidableEq κ] {group : StockLocate → OrderId → κ} {k : Option κ}
  {e e' : MatchingEngine} {m m' : ReferenceEngine} {events : List (Placement × ItchEvent)}

/-- The calls of a feed. -/
def feed (events : List (Placement × ItchEvent)) : List (Placement × EngineCall) :=
  events.map fun x => (x.1, .apply x.2)

/-- The events of a group. -/
def eventsOf (group : StockLocate → OrderId → κ) (k : Option κ)
    (events : List (Placement × ItchEvent)) : List (Placement × ItchEvent) :=
  events.filter fun x => x.2.groupOf group = k

/-- The results of the events of a group. -/
def resultsOf (group : StockLocate → OrderId → κ) (k : Option κ)
    (events : List (Placement × ItchEvent)) (results : List CallResult) : List CallResult :=
  ((events.zip results).filter fun x => x.1.2.groupOf group = k).map Prod.snd

/-- The second engine has the orders of the group as the first has them, and no others. -/
structure OnlyGroup (group : StockLocate → OrderId → κ) (k : Option κ) (e e' : MatchingEngine) :
    Prop where
  order : ∀ locate id, e'.order locate id =
    if some (group locate id) = k then e.order locate id else none
  views : ∀ locate side price, e'.views locate side price =
    (e.views locate side price).filter fun v => some (group locate v.orderId) = k

theorem onlyGroup_of_agree (h : Holds e m) (h' : Holds e' m') (hagree : Agree group k m m')
    (hothers : ∀ k', k' ≠ k → Agree group k' (.new {}) m') : OnlyGroup group k e e' := by
  have hnone : ∀ locate id, some (group locate id) ≠ k → (m'.book locate).order id = none :=
    fun locate id hne => (hothers _ hne).order (decide_eq_true rfl)
  constructor
  · intro locate id
    rw [h.order_eq, h'.order_eq]
    split_ifs with hid
    · exact hagree.order (decide_eq_true hid)
    · exact hnone locate id hid
  · intro locate side price
    rw [h.views_eq, h'.views_eq]
    refine Eq.trans ?_ (hagree.views side price)
    refine (List.filter_eq_self.mpr fun v hv => decide_eq_true ?_).symm
    -- an order of the book is of the group
    by_contra hne
    obtain ⟨id, _, hid⟩ := List.mem_filterMap.mp hv
    obtain rfl := ReferenceBook.orderId_of_order hid
    rw [hnone locate _ hne] at hid
    cases hid

theorem feed_ne_clear (events : List (Placement × ItchEvent)) :
    ∀ call ∈ feed events, call.2 ≠ .clear := by
  intro call hcall
  obtain ⟨x, _, rfl⟩ := List.mem_map.mp hcall
  exact nofun

/-- A feed of fewer than `2 ^ 64 - 1` events. -/
theorem fewOrders_feed (h : events.length < 2 ^ 64 - 1) : FewOrders (feed events) :=
  fewOrders_of_length (feed_ne_clear events) (by unfold feed; rwa [List.length_map])

theorem map_feed (events : List (Placement × ItchEvent)) :
    (feed events).map Prod.snd = (events.map Prod.snd).map EngineCall.apply := by
  unfold feed
  rw [List.map_map, List.map_map]
  rfl

theorem feed_keys (hwithin : ∀ x ∈ events, x.2.Within group) :
    ∀ call ∈ (feed events).map Prod.snd, ((groups group).key call).isSome := by
  intro call hcall
  rw [map_feed] at hcall
  obtain ⟨event, hevent, rfl⟩ := List.mem_map.mp hcall
  obtain ⟨x, hx, rfl⟩ := List.mem_map.mp hevent
  rw [groups_key, groupKey_apply (hwithin x hx)]
  rfl

theorem map_eventsOf (hwithin : ∀ x ∈ events, x.2.Within group) (k : Option κ) :
    (feed (eventsOf group k events)).map Prod.snd =
      (groups group).only k ((feed events).map Prod.snd) := by
  rw [map_feed, map_feed]
  unfold eventsOf Components.only
  rw [List.map_map, List.map_map, List.filter_map]
  refine congrArg _ (List.filter_congr fun x hx => ?_)
  rw [Function.comp_apply, Function.comp_apply, groups_key, groupKey_apply (hwithin x hx)]
  exact decide_eq_decide.mpr Option.some_inj.symm

theorem map_resultsOf (hwithin : ∀ x ∈ events, x.2.Within group) (k : Option κ)
    (results : List CallResult) :
    ((groups group).onlyRun k (((feed events).map Prod.snd).zip results)).map Prod.snd =
      resultsOf group k events results := by
  rw [map_feed]
  unfold resultsOf Components.onlyRun
  rw [List.map_map, List.zip_map_left, List.filter_map, List.map_map]
  refine congrArg _ (List.filter_congr fun x hx => ?_)
  have hevent := groupKey_apply (hwithin x.1 (List.of_mem_zip hx).1)
  simp only [Function.comp_apply, Prod.map_fst, groups_key, hevent]
  exact decide_eq_decide.mpr Option.some_inj

/-- The reference engine after the calls of a feed. -/
def fed (events : List (Placement × ItchEvent)) : List CallResult × ReferenceEngine :=
  (ReferenceEngine.new {}).runCalls ((feed events).map Prod.snd)

/-- The events of one group by themselves. -/
theorem fed_eventsOf (hwithin : ∀ x ∈ events, x.2.Within group) (h : FewOrders (feed events))
    (k : Option κ) :
    (fed (eventsOf group k events)).1 = resultsOf group k events (fed events).1 ∧
      Agree group k (fed events).2 (fed (eventsOf group k events)).2 ∧
      ∀ k', k' ≠ k → Agree group k' (.new {}) (fed (eventsOf group k events)).2 := by
  have hseparate := groups_separate group
  obtain ⟨hresults, hpart⟩ := hseparate.run_only (k := k) _ (feed_keys hwithin) h.roomy
    hseparate.start rfl fun _ _ => rfl
  rw [← map_eventsOf hwithin] at hresults hpart
  rw [byKey_run, byKey_run] at hpart
  refine ⟨?_, groupPart_eq_iff.mp hpart, fun k' hne => ?_⟩
  · unfold fed
    rw [← map_resultsOf hwithin, ← map_byKey_run (groupKey group) (groupPart group), hresults,
      byKey_run]
  · have hkeys : ∀ call ∈ (feed (eventsOf group k events)).map Prod.snd,
        ∃ k₁, (groups group).key call = some k₁ ∧ k₁ ≠ k' := by
      intro call hcall
      rw [map_eventsOf hwithin] at hcall
      exact ⟨k, of_decide_eq_true (List.mem_filter.mp hcall).2, hne.symm⟩
    have hframe := hseparate.run_frame _ hkeys (.new {})
    rw [byKey_run] at hframe
    exact groupPart_eq_iff.mp hframe

/-- Feeds with the same events of every group. -/
theorem fed_perm {events' : List (Placement × ItchEvent)} (hwithin : ∀ x ∈ events, x.2.Within group)
    (hwithin' : ∀ x ∈ events', x.2.Within group) (h : FewOrders (feed events))
    (h' : FewOrders (feed events'))
    (hsame : ∀ k, (eventsOf group k events).map Prod.snd = (eventsOf group k events').map Prod.snd) :
    (fed events).1.Perm (fed events').1 ∧ ∀ k, Agree group k (fed events).2 (fed events').2 := by
  obtain ⟨hperm, hparts⟩ := (groups_separate group).run_perm (feed_keys hwithin) (feed_keys hwithin')
    h.roomy h'.roomy fun k => by
      rw [← map_eventsOf hwithin, ← map_eventsOf hwithin', map_feed, map_feed, hsame]
  refine ⟨?_, fun k => ?_⟩
  · have hresults := hperm.map Prod.snd
    rwa [map_byKey_run, map_byKey_run] at hresults
  · have hpart := hparts k
    rw [byKey_run, byKey_run] at hpart
    exact groupPart_eq_iff.mp hpart.symm

/-- **Orders do not interfere.** Take any division of the orders into groups that no replacement of the
feed crosses. With the default limits, and fewer than `2 ^ 64 - 1` orders resting at a time, the events
of a group return what they return in a feed without the others, and make the same orders, in the same
order; so feeds with the same events of every group end with the same orders, at every price up to
their priority across the groups, the same count of resting orders and the same counters. -/
theorem orders_do_not_interfere (group : StockLocate → OrderId → κ)
    (events : List (Placement × ItchEvent)) (hwithin : ∀ x ∈ events, x.2.Within group)
    (h : FewOrders (feed events)) :
    ∃ results e, (runCalls (feed events)).run (new {}) = .ok results e ∧
      (∀ k, ∃ e', (runCalls (feed (eventsOf group k events))).run (new {}) =
        .ok (resultsOf group k events results) e' ∧ OnlyGroup group k e e') ∧
      ∀ events', (∀ x ∈ events', x.2.Within group) → FewOrders (feed events') →
        (∀ k, (eventsOf group k events).map Prod.snd = (eventsOf group k events').map Prod.snd) →
        ∃ results' e', (runCalls (feed events')).run (new {}) = .ok results' e' ∧
          (∀ locate id, e'.order locate id = e.order locate id) ∧
          (∀ locate side price, (e'.views locate side price).Perm (e.views locate side price)) ∧
          e'.restingOrderCount = e.restingOrderCount ∧ e'.stats = e.stats := by
  obtain ⟨e, run, hrep, hcounted⟩ :=
    runCalls_counted (feed events) h.noClear (new_represents {}) counted_nil
  refine ⟨_, e, run, fun k => ?_, fun events' hwithin' h' hsame => ?_⟩
  · obtain ⟨e', run', hrep', _⟩ := runCalls_new {} (feed (eventsOf group k events))
    obtain ⟨hresults, hagree, hothers⟩ := fed_eventsOf hwithin h k
    refine ⟨e', ?_, onlyGroup_of_agree hrep.toHolds hrep'.toHolds hagree hothers⟩
    rw [run']
    exact congrArg (EStateM.Result.ok · e') hresults
  · obtain ⟨e', run', hrep', hcounted'⟩ :=
      runCalls_counted (feed events') h'.noClear (new_represents {}) counted_nil
    obtain ⟨hresults, hagree⟩ := fed_perm hwithin hwithin' h h' hsame
    refine ⟨_, e', run', fun locate id => ?_, fun locate side price => ?_, ?_,
      (hcounted.unique hcounted' hresults).symm⟩
    · rw [hrep.order_eq, hrep'.order_eq]
      exact (hagree (some (group locate id))).order (decide_eq_true rfl)
    · rw [hrep.views_eq, hrep'.views_eq]
      refine perm_of_groups (fun v => some (group locate v.orderId)) fun k => ?_
      exact (hagree k).views side price
    · apply BitVec.eq_of_toNat_eq
      rw [hrep.count, hrep'.count]
      exact Nat.le_antisymm (restingOrders_le_of_agree hagree)
        (restingOrders_le_of_agree fun k => (hagree k).symm)

/-- Two orders at one price, displayed in either order. -/
theorem orders_do_not_interfere_two :
    let first : Placement × ItchEvent :=
      (.bump, .addOrder ⟨⟨1, 0, 0⟩, 7, .Buy, 10, Vector.replicate 8 65, 100⟩)
    let second : Placement × ItchEvent :=
      (.bump, .addOrder ⟨⟨1, 0, 0⟩, 8, .Buy, 20, Vector.replicate 8 65, 100⟩)
    let removed : Placement × ItchEvent := (.bump, .orderDelete ⟨⟨1, 0, 0⟩, 7⟩)
    ∃ results e, (runCalls (feed [first, second, removed])).run (new {}) = .ok results e ∧
      ∃ results' e', (runCalls (feed [second, first, removed])).run (new {}) = .ok results' e' ∧
        ∀ locate id, e'.order locate id = e.order locate id := by
  intro first second removed
  have hwithin : ∀ x ∈ [first, second, removed], x.2.Within fun _ id => id :=
    List.forall_mem_cons.mpr ⟨within_single rfl, List.forall_mem_cons.mpr ⟨within_single rfl,
      List.forall_mem_cons.mpr ⟨within_single rfl, nofun⟩⟩⟩
  obtain ⟨results, e, run, _, hpair⟩ := orders_do_not_interfere (fun _ id => id)
    [first, second, removed] hwithin (fewOrders_feed (by simp))
  obtain ⟨results', e', run', horder, _⟩ := hpair [second, first, removed]
    (fun x hx => hwithin x ((List.Perm.swap _ _ _).mem_iff.mp hx)) (fewOrders_feed (by simp))
    fun k => by
      by_cases h7 : k = some 7
      · subst h7; rfl
      · by_cases h8 : k = some 8
        · subst h8; rfl
        · have h7' : ¬some 7#64 = k := fun e => h7 e.symm
          have h8' : ¬some 8#64 = k := fun e => h8 e.symm
          simp [eventsOf, ItchEvent.groupOf, ItchEvent.names, first, second, removed, h7', h8']
  exact ⟨results, e, run, results', e', run', horder⟩

end MatchingEngine

end Lob
