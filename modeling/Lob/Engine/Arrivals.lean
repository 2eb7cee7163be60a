import Lob.Book.Priority
import Lob.Engine.Ledger
import Lob.Engine.Splitting

/-!
# Price-time priority

An order arrives when it is added, when the remainder of a submitted order comes to rest, and when a
replacement moves it. After any run the queues of the engine hold the orders best price first and at a
price in the order of their last arrivals, and so come the fills of a submitted order.
-/

/-! ## Lists in the order of the last arrivals -/

namespace Basis

variable {α : Type} [DecidableEq α] {l l' : List α} {a : α}

/-- `a` comes last from now on. -/
def moveToBack (l : List α) (a : α) : List α := l.filter (· ≠ a) ++ [a]

theorem moveToBack_nodup (h : l.Nodup) (a : α) : (moveToBack l a).Nodup := by
  refine (h.filter _).append (List.nodup_singleton a) fun b hb hb' => ?_
  rw [List.mem_singleton] at hb'
  exact of_decide_eq_true (List.mem_filter.mp hb).2 hb'

theorem sublist_filter_ne (h : l'.Sublist l) (ha : a ∉ l') : l'.Sublist (l.filter (· ≠ a)) := by
  have hkept : l'.filter (· ≠ a) = l' := by
    rw [List.filter_eq_self]
    intro b hb
    rw [decide_eq_true_iff]
    rintro rfl
    exact ha hb
  rw [← hkept]
  exact h.filter _

/-- The others keep their order. -/
theorem sublist_moveToBack (h : l'.Sublist l) (ha : a ∉ l') : l'.Sublist (moveToBack l a) :=
  (sublist_filter_ne h ha).trans (List.sublist_append_left _ _)

theorem concat_sublist_moveToBack (h : l'.Sublist l) (ha : a ∉ l') :
    (l' ++ [a]).Sublist (moveToBack l a) :=
  (sublist_filter_ne h ha).append (List.Sublist.refl [a])

end Basis

namespace Lob

open Basis ReferenceEngine

/-! ## The queues of a reference book -/

namespace ReferenceBook

variable {r r' r'' : ReferenceBook} {id oldId newId : OrderId} {order : ReferenceOrder} {side : Side}
  {price newPrice : Price} {quantity newQuantity : Quantity}

/-- Orders leave the queues; none joins. -/
def Thins (r r' : ReferenceBook) : Prop :=
  ∀ side price, (r'.levels side price).Sublist (r.levels side price)

/-- Orders leave the queues, and `arrived` joins at the end of one. -/
def Moves (r r' : ReferenceBook) (arrived : Option OrderId) : Prop :=
  ∀ side price, ∃ kept, kept.Sublist (r.levels side price) ∧ (∀ id ∈ arrived, id ∉ kept) ∧
    (r'.levels side price = kept ∨ ∃ id ∈ arrived, r'.levels side price = kept ++ [id])

theorem Thins.refl (r : ReferenceBook) : Thins r r := fun _ _ => List.Sublist.refl _

theorem Thins.trans (h : Thins r r') (h' : Thins r' r'') : Thins r r'' :=
  fun side price => (h' side price).trans (h side price)

theorem Thins.moves (h : Thins r r') : Moves r r' none :=
  fun side price => ⟨_, h side price, nofun, Or.inl rfl⟩

theorem removeFromLevel_thins (r : ReferenceBook) (id : OrderId) (order : ReferenceOrder) :
    Thins r (r.removeFromLevel id order) := by
  intro side price
  show (r.levels.set order.side order.price ((r.levels order.side order.price).erase id) side
    price).Sublist _
  by_cases hplace : side = order.side ∧ price = order.price
  · rw [hplace.1, hplace.2, Queues.set_self]
    exact List.erase_sublist
  · rw [Queues.set_of_ne hplace]

theorem erase_thins (r : ReferenceBook) (id : OrderId) : Thins r (r.erase id).2 := by
  cases hid : r.orders.lookup id with
  | none =>
    unfold erase
    rw [hid]
    exact Thins.refl r
  | some order =>
    rw [erase_of_lookup hid]
    exact removeFromLevel_thins r id order

theorem cancel_thins (r : ReferenceBook) (id : OrderId) (quantity : Quantity) :
    Thins r (r.cancel id quantity).2 := by
  cases hok : (r.cancel id quantity).1 with
  | false =>
    rw [cancel_refused hok]
    exact Thins.refl r
  | true =>
    obtain ⟨order, _, _, _, hcancel⟩ := cancel_accepted hok
    rw [hcancel]
    split_ifs
    · exact erase_thins r id
    · exact Thins.refl r

theorem take_thins (r : ReferenceBook) (taken : List (OrderView × ℕ)) : Thins r (r.take taken) := by
  unfold take
  induction taken generalizing r with
  | nil => exact Thins.refl r
  | cons x taken ih => exact (cancel_thins r _ _).trans (ih _)

/-- A new order joins. -/
theorem WF.add_moves (h : r.WF) (hok : (r.add id side price quantity).1 = true) :
    Moves r (r.add id side price quantity).2 (some id) := by
  obtain ⟨_, hnew, hr⟩ := add_accepted hok
  intro side' price'
  refine ⟨_, List.Sublist.refl _, fun id' hid' hmem => ?_, ?_⟩
  · obtain rfl := Option.mem_some.mp hid'
    obtain ⟨_, hlook, _⟩ := h.queued _ _ _ hmem
    rw [lookup_of_not_contains hnew] at hlook
    cases hlook
  · rw [hr, pushBack_levels]
    split_ifs
    · exact Or.inr ⟨id, rfl, rfl⟩
    · exact Or.inl (List.append_nil _)

/-- A replacement joins, except where it leaves the order in its place. -/
theorem WF.replace_moves (h : r.WF) (hid : r.orders.lookup oldId = some order)
    (hok : (r.replace oldId newId newPrice newQuantity).1 = true)
    (hmoves : ¬InPlace order oldId newId newPrice newQuantity) :
    Moves r (r.replace oldId newId newPrice newQuantity).2 (some newId) := by
  intro side price
  have hlevels := (h.replace_levels hid hok side price).1 hmoves
  refine ⟨without (r.levels side price) oldId, List.filter_sublist, fun id' hid' hmem => ?_, ?_⟩
  · obtain rfl := Option.mem_some.mp hid'
    obtain ⟨hold, hne⟩ := List.mem_filter.mp hmem
    obtain ⟨_, hlook, _⟩ := h.queued _ _ _ hold
    rw [(replace_of_ne hid (fun e => of_decide_eq_true hne e.symm) hok).1] at hlook
    cases hlook
  · rw [hlevels]
    split_ifs
    · exact Or.inr ⟨newId, rfl, rfl⟩
    · exact Or.inl (List.append_nil _)

end ReferenceBook

/-! ## Arrivals -/

/-- The replacement leaves the order in its place: the same reference, the same price and no more
shares. -/
def OrderReplace.Amends (message : OrderReplace) (original : Option OrderView) : Prop :=
  message.originalOrderReference = message.newOrderReference ∧
    ∃ v ∈ original, message.price = v.price ∧ message.shares ≤ v.quantity

instance (message : OrderReplace) (original : Option OrderView) :
    Decidable (message.Amends original) := inferInstanceAs (Decidable (_ ∧ _))

/-- The order that arrives by a call, where `order` are the orders of its locate before it. -/
def EngineCall.arrival (order : OrderId → Option OrderView) (result : CallResult) :
    EngineCall → Option OrderId
  | .apply event =>
    match event with
    | .addOrder message => if result.action = some .Added then some message.orderReference else none
    | .addAttributedOrder message =>
      if result.action = some .Added then some message.orderReference else none
    | .orderReplace message =>
      if result.action = some .Replaced ∧ ¬message.Amends (order message.originalOrderReference) then
        some message.newOrderReference
      else none
    | _ => none
  | .submitLimit _ orderId _ _ _ _ => if result.resting = 0 then none else some orderId
  | _ => none

/-- The orders of every locate, in the order of their last arrivals. -/
abbrev ArrivalLog := List (StockLocate × OrderId)

def ArrivalLog.arrive (log : ArrivalLog) (locate : StockLocate) : Option OrderId → ArrivalLog
  | none => log
  | some id => moveToBack log (locate, id)

/-- The log after a call. -/
def EngineCall.log (order : StockLocate → OrderId → Option OrderView) (result : CallResult)
    (log : ArrivalLog) (call : EngineCall) : ArrivalLog :=
  match call.locate with
  | none => []
  | some locate => log.arrive locate (call.arrival (order locate) result)

/-! ## The reference engine -/

namespace ReferenceEngine

variable {m m' : ReferenceEngine} {log : ArrivalLog} {locate : StockLocate} {arrived : Option OrderId}

/-- Every queue is in the order of the log. -/
structure InOrder (log : ArrivalLog) (m : ReferenceEngine) : Prop where
  nodup : log.Nodup
  levels : ∀ locate side price,
    (((m.book locate).levels side price).map (Prod.mk locate)).Sublist log

/-- Orders leave, and one may join. -/
theorem InOrder.moves (h : InOrder log m) (helse : SameElsewhere locate m m')
    (hmoves : (m.book locate).Moves (m'.book locate) arrived) : InOrder (log.arrive locate arrived) m' where
  nodup := by
    cases arrived with
    | none => exact h.nodup
    | some id => exact moveToBack_nodup h.nodup _
  levels locate' side price := by
    by_cases hown : locate' = locate
    · rw [hown]
      obtain ⟨kept, hsub, hnot, hlevels⟩ := hmoves side price
      have hkept := (hsub.map (Prod.mk locate)).trans (h.levels locate side price)
      cases arrived with
      | none =>
        rcases hlevels with heq | ⟨id, hid, _⟩
        · rw [heq]
          exact hkept
        · cases hid
      | some id =>
        have hnot' : (locate, id) ∉ kept.map (Prod.mk locate) := by
          intro hmem
          obtain ⟨id', hid', heq⟩ := List.mem_map.mp hmem
          cases heq
          exact hnot id rfl hid'
        rcases hlevels with heq | ⟨id', hid', heq⟩
        · rw [heq]
          exact sublist_moveToBack hkept hnot'
        · cases hid'
          rw [heq, List.map_append]
          exact concat_sublist_moveToBack hkept hnot'
    · rw [helse.book hown]
      cases arrived with
      | none => exact h.levels locate' side price
      | some id =>
        refine sublist_moveToBack (h.levels locate' side price) fun hmem => ?_
        obtain ⟨_, _, heq⟩ := List.mem_map.mp hmem
        cases heq
        exact hown rfl

theorem InOrder.thins (h : InOrder log m) (helse : SameElsewhere locate m m')
    (hthins : (m.book locate).Thins (m'.book locate)) : InOrder log m' := by
  show InOrder (log.arrive locate none) m'
  exact h.moves helse hthins.moves

theorem InOrder.add (h : InOrder log m) (hwf : (m.book locate).WF) (reference : OrderId) (side : Side)
    (price : Price) (shares : Quantity) :
    InOrder (log.arrive locate (if some (m.add locate reference side price shares).1.action =
      some .Added then some reference else none)) (m.add locate reference side price shares).2 := by
  refine h.moves (add_elsewhere reference side price shares) ?_
  by_cases hcan : m.CanCreateOrder locate
  · obtain ⟨hresult, hbook⟩ := add_eq reference side price shares hcan
    rw [hresult, hbook]
    cases hok : ((m.book locate).add reference side price shares).1 with
    | true => exact hwf.add_moves hok
    | false =>
      rw [ReferenceBook.add_refused hok]
      exact (ReferenceBook.Thins.refl _).moves
  · rw [show m.add locate reference side price shares = (rejected locate, m) from if_neg hcan]
    exact (ReferenceBook.Thins.refl _).moves

/-- `E`, `C`, `X` and `D`: orders leave. -/
theorem InOrder.reduce (h : InOrder log m) (action : ApplyAction)
    {operation : ReferenceBook → Bool × ReferenceBook} (hempty : operation .empty = (false, .empty))
    (hrefused : ∀ r, (operation r).1 = false → (operation r).2 = r)
    (hop : ∀ r, ReferenceBook.Thins r (operation r).2) :
    InOrder log (m.update locate action operation).2 := by
  refine h.thins (update_elsewhere action operation) ?_
  rw [(update_eq m locate action hempty hrefused).2]
  exact hop _

theorem InOrder.swept (h : InOrder log m) (side : Side) (reaches : Price → Bool)
    (quantity : Quantity) : InOrder log (m.swept locate side reaches quantity) := by
  refine h.thins (swept_elsewhere side reaches quantity) ?_
  rw [swept_book, if_pos rfl]
  exact ReferenceBook.take_thins _ _

/-- `U`: the order joins anew, or keeps its place. -/
theorem InOrder.replace (h : InOrder log m) (hwf : (m.book locate).WF) (message : OrderReplace) :
    let result := m.update locate .Replaced fun r => r.replace message.originalOrderReference
      message.newOrderReference message.price message.shares
    InOrder (log.arrive locate (if some result.1.action = some .Replaced ∧
      ¬message.Amends ((m.book locate).order message.originalOrderReference) then
        some message.newOrderReference else none)) result.2 := by
  intro result
  have hupdate := @update_eq m locate .Replaced (fun r => r.replace message.originalOrderReference
    message.newOrderReference message.price message.shares) rfl fun r => ReferenceBook.replace_refused
  refine h.moves (update_elsewhere _ _) ?_
  rw [hupdate.1, hupdate.2]
  cases hok : ((m.book locate).replace message.originalOrderReference message.newOrderReference
      message.price message.shares).1 with
  | false =>
    rw [ReferenceBook.replace_refused hok, if_neg fun h => nomatch h.1]
    exact (ReferenceBook.Thins.refl _).moves
  | true =>
    obtain ⟨order, hid⟩ := ReferenceBook.replace_accepted hok
    have hplace : message.Amends ((m.book locate).order message.originalOrderReference) ↔
        ReferenceBook.InPlace order message.originalOrderReference message.newOrderReference
          message.price message.shares := by
      rw [ReferenceBook.order_eq hid]
      unfold OrderReplace.Amends ReferenceBook.InPlace
      simp
    by_cases hin : message.Amends ((m.book locate).order message.originalOrderReference)
    · rw [if_neg fun h => h.2 hin]
      refine ReferenceBook.Thins.moves fun side price => ?_
      rw [(hwf.replace_levels hid hok side price).2 (hplace.mp hin)]
    · rw [if_pos ⟨rfl, hin⟩]
      exact hwf.replace_moves hid hok fun h => hin (hplace.mpr h)

theorem InOrder.submitLimit (h : InOrder log m) (hwf : (m.book locate).WF) (orderId : OrderId)
    (side : Side) (limitPrice : Price) (quantity : Quantity) (output : List Fill) :
    let result := m.submitLimit locate orderId side limitPrice quantity output
    InOrder (log.arrive locate (if result.1.1.resting.toNat = 0 then none else some orderId))
      result.2 := by
  intro result
  have hcases := submitLimit_cases m locate orderId side limitPrice quantity output
  have hswept : InOrder log (m.swept locate side (reach true side limitPrice) quantity) :=
    h.swept side (reach true side limitPrice) quantity
  have hwf' : ((m.swept locate side (reach true side limitPrice) quantity).book locate).WF := by
    rw [swept_book, if_pos rfl]
    exact (hwf.sweep (opposite side) (reach true side limitPrice) quantity.toNat).1
  unfold result
  generalize m.submitLimit locate orderId side limitPrice quantity output = out at hcases ⊢
  obtain ⟨⟨result, output'⟩, m'⟩ := out
  simp only at hcases ⊢
  cases hcases with
  | refused => exact h
  | filled hzero =>
    rw [hzero]
    exact hswept
  | capped hne hcan => exact hswept
  | rests hne hcan hok =>
    have hrests : (matchResult quantity output.length
        (m.taken locate side (reach true side limitPrice) quantity)).resting.toNat ≠ 0 :=
      fun hzero => hne (BitVec.eq_of_toNat_eq hzero)
    rw [if_neg hrests]
    refine hswept.moves ((SameElsewhere.refl locate _).setBook _) ?_
    rw [setBook_book]
    exact hwf'.add_moves hok

/-- **One call** keeps the queues in the order of the log. -/
theorem InOrder.call (h : InOrder log m) (hwf : ∀ locate, (m.book locate).WF) (call : EngineCall) :
    InOrder (call.log (fun locate => (m.book locate).order) (call.onReference m).1 log)
      (call.onReference m).2 := by
  cases call with
  | apply event =>
    cases event with
    | addOrder message => exact h.add (hwf _) _ _ _ _
    | addAttributedOrder message => exact h.add (hwf _) _ _ _ _
    | orderExecuted message =>
      exact h.reduce .Executed rfl (fun r => ReferenceBook.cancel_refused)
        fun r => ReferenceBook.cancel_thins r _ _
    | orderExecutedWithPrice message =>
      exact h.reduce .Executed rfl (fun r => ReferenceBook.cancel_refused)
        fun r => ReferenceBook.cancel_thins r _ _
    | orderCancel message =>
      exact h.reduce .Cancelled rfl (fun r => ReferenceBook.cancel_refused)
        fun r => ReferenceBook.cancel_thins r _ _
    | orderDelete message =>
      exact h.reduce .Deleted rfl (fun r => ReferenceBook.erase_refused)
        fun r => ReferenceBook.erase_thins r _
    | orderReplace message => exact h.replace (hwf _) message
    | _ => exact h
  | submitLimit locate orderId side limitPrice quantity output =>
    exact h.submitLimit (hwf locate) orderId side limitPrice quantity output
  | submitMarket locate side quantity output =>
    show InOrder log (m.submitMarket locate side quantity output).2
    unfold ReferenceEngine.submitMarket
    split_ifs
    · exact h
    · exact h.swept _ _ _
  | clear => exact ⟨List.nodup_nil, fun _ _ _ => List.Sublist.refl []⟩

end ReferenceEngine

/-! ## Runs -/

namespace MatchingEngine

variable {limits : EngineLimits} {e : MatchingEngine} {m : ReferenceEngine} {log : ArrivalLog}

/-- The log of a run. -/
def arrivals (log : ArrivalLog) : List (Placement × EngineCall) → Engine ArrivalLog
  | [] => return log
  | (place, call) :: calls => do
    let e ← get
    let result ← call.onEngine (.reliable place)
    arrivals (call.log e.order result log) calls

/-- **A run of calls**, by induction on it. -/
theorem arrivals_inOrder (calls : List (Placement × EngineCall)) :
    ∀ {log e m}, Represents e m → InOrder log m → ∃ results e' m' log',
      (runCalls calls).run e = .ok results e' ∧ (arrivals log calls).run e = .ok log' e' ∧
        Represents e' m' ∧ InOrder log' m' := by
  induction calls with
  | nil => exact fun {log e m} h hlog => ⟨_, e, m, log, rfl, rfl, h, hlog⟩
  | cons head calls ih =>
    obtain ⟨place, call⟩ := head
    intro log e m h hlog
    obtain ⟨e₁, run₁, h₁⟩ := call_simulates h place call
    obtain ⟨results, e₂, m₂, log₂, run₂, hlog₂, h₂⟩ := ih h₁ (hlog.call h.wf call)
    have horder : e.order = fun locate => (m.book locate).order := by
      funext locate id
      exact h.order_eq locate id
    refine ⟨(call.onReference m).1 :: results, e₂, m₂, log₂, ?_, ?_, h₂⟩
    · unfold runCalls
      rw [run_bind_ok run₁, run_bind_ok run₂]
      rfl
    · unfold arrivals
      rw [run_get_bind, run_bind_ok run₁, horder]
      exact hlog₂

/-! ## Price-time priority -/

/-- The first comes at a better price, or at the same price and arrived before. -/
def PriceTime (log : ArrivalLog) (locate : StockLocate) (side : Side) (first second : Price × OrderId) :
    Prop :=
  Better side first.1 second.1 ∨
    first.1 = second.1 ∧ [(locate, first.2), (locate, second.2)].Sublist log

/-- The fills of an order are within its limit and come in price-time priority. -/
structure FairFills (log : ArrivalLog) (locate : StockLocate) (side : Side) (reaches : Price → Bool)
    (fills : List Fill) : Prop where
  priority : (fills.map fun fill => (fill.price, fill.restingOrder)).Pairwise
    (PriceTime log locate (opposite side))
  limit : ∀ fill ∈ fills, reaches fill.price = true

end MatchingEngine

namespace ReferenceEngine

open MatchingEngine

variable {m : ReferenceEngine} {log : ArrivalLog} {locate : StockLocate}

/-- At one price the orders come in the order of the log. -/
theorem InOrder.views (h : InOrder log m) (hwf : (m.book locate).WF) (side : Side) (price : Price) :
    ((m.book locate).views side price).Pairwise fun v w =>
      PriceTime log locate side (v.price, v.orderId) (w.price, w.orderId) := by
  rw [List.pairwise_iff_forall_sublist]
  intro v w hsub
  obtain ⟨_, hv, _⟩ := hwf.mem_views (hsub.subset List.mem_cons_self)
  obtain ⟨_, hw, _⟩ := hwf.mem_views (hsub.subset (List.mem_cons_of_mem v List.mem_cons_self))
  have hids := hsub.map OrderView.orderId
  rw [hwf.map_views] at hids
  exact Or.inr ⟨hv.trans hw.symm, (hids.map (Prod.mk locate)).trans (h.levels locate side price)⟩

/-- The orders of a side come best price first. -/
theorem InOrder.queue (h : InOrder log m) (hwf : (m.book locate).WF) (side : Side)
    (reaches : Price → Bool) :
    (((m.book locate).queue side reaches).map fun v => (v.price, v.orderId)).Pairwise
      (PriceTime log locate side) := by
  rw [List.pairwise_map]
  unfold ReferenceBook.queue
  rw [List.pairwise_flatMap]
  refine ⟨fun price _ => h.views hwf side price, ?_⟩
  refine ((priceOrder_pairwise side).filter reaches).imp fun {price price'} hbetter => ?_
  intro v hv w hw
  rw [← (hwf.mem_views hv).2.1, ← (hwf.mem_views hw).2.1] at hbetter
  exact Or.inl hbetter

theorem mem_queue_reaches {r : ReferenceBook} (hwf : r.WF) {side : Side} {reaches : Price → Bool}
    {v : OrderView} (hv : v ∈ r.queue side reaches) : reaches v.price = true := by
  obtain ⟨price, hprice, hv⟩ := List.mem_flatMap.mp hv
  rw [(hwf.mem_views hv).2.1]
  exact (List.mem_filter.mp hprice).2

/-- The fills of a sweep, as many as the output holds. -/
theorem take_writeFills_any (taken : List (OrderView × ℕ)) (output : List Fill) :
    (writeFills taken output).take taken.length = (taken.map toFill).take output.length := by
  by_cases hlen : taken.length ≤ output.length
  · rw [take_writeFills hlen, List.take_of_length_le (by rwa [List.length_map])]
  · unfold writeFills
    rw [List.drop_of_length_le (by omega), List.append_nil,
      List.take_of_length_le (by rw [List.length_take, List.length_map]; omega)]

theorem InOrder.fills (h : InOrder log m) (hwf : (m.book locate).WF) (side : Side)
    (reaches : Price → Bool) (quantity : Quantity) (output : List Fill) :
    FairFills log locate side reaches ((writeFills (m.taken locate side reaches quantity) output).take
      (m.taken locate side reaches quantity).length) where
  priority := by
    rw [take_writeFills_any, List.map_take, List.map_map]
    have htaken : ((m.taken locate side reaches quantity).map Prod.fst).Sublist
        ((m.book locate).queue (opposite side) reaches) := map_fst_greedy _ _
    have hfills := htaken.map fun v => (v.price, v.orderId)
    rw [List.map_map] at hfills
    exact (h.queue hwf (opposite side) reaches).sublist ((List.take_sublist _ _).trans hfills)
  limit fill hfill := by
    rw [take_writeFills_any] at hfill
    obtain ⟨x, hx, rfl⟩ := List.mem_map.mp (List.mem_of_mem_take hfill)
    exact mem_queue_reaches hwf (fst_mem_of_mem_greedy hx)

theorem fairFills_nil {side : Side} {reaches : Price → Bool} : FairFills log locate side reaches [] :=
  ⟨List.Pairwise.nil, fun _ h => nomatch h⟩

theorem InOrder.submitLimit_fills (h : InOrder log m) (hwf : (m.book locate).WF) (orderId : OrderId)
    (side : Side) (limitPrice : Price) (quantity : Quantity) (output : List Fill) :
    let reported := (m.submitLimit locate orderId side limitPrice quantity output).1
    FairFills log locate side (crosses side limitPrice) (reported.2.take reported.1.fillCount) := by
  intro reported
  have hfills := h.fills hwf side (reach true side limitPrice) quantity output
  unfold reported ReferenceEngine.submitLimit
  by_cases hbad : quantity = 0 ∨ (m.book locate).contains orderId = true
  · rw [if_pos hbad]
    exact fairFills_nil
  rw [if_neg hbad]
  simp only
  split_ifs
  · exact hfills
  · exact hfills
  · exact hfills

theorem InOrder.submitMarket_fills (h : InOrder log m) (hwf : (m.book locate).WF) (side : Side)
    (quantity : Quantity) (output : List Fill) :
    let reported := (m.submitMarket locate side quantity output).1
    FairFills log locate side (fun _ => true) (reported.2.take reported.1.fillCount) := by
  intro reported
  unfold reported ReferenceEngine.submitMarket
  split_ifs
  · exact fairFills_nil
  · exact h.fills hwf side (reach false side 0) quantity output

end ReferenceEngine

namespace MatchingEngine

/-- **Price-time priority.** After every run the queues of the engine are in price-time priority, with
the times of the last arrivals, and so are the fills that a submitted order reports, which are within
its limit. -/
theorem price_time_priority (limits : EngineLimits) (calls : List (Placement × EngineCall)) :
    ∃ results e log, (runCalls calls).run (new limits) = .ok results e ∧
      (arrivals [] calls).run (new limits) = .ok log e ∧ log.Nodup ∧
      (∀ locate side reaches, ((e.queue locate side reaches).map fun v =>
        (v.price, v.orderId)).Pairwise (PriceTime log locate side)) ∧
      (∀ place locate orderId side limitPrice quantity output, ∃ result output' e',
        (submitLimit (.reliable place) locate orderId side limitPrice quantity output).run e =
          .ok (result, output') e' ∧
        FairFills log locate side (crosses side limitPrice) (output'.take result.fillCount)) ∧
      ∀ locate side quantity output, ∃ result output' e',
        (submitMarket locate side quantity output).run e = .ok (result, output') e' ∧
        FairFills log locate side (fun _ => true) (output'.take result.fillCount) := by
  have hstart : InOrder [] (ReferenceEngine.new limits) :=
    ⟨List.nodup_nil, fun _ _ _ => List.Sublist.refl []⟩
  obtain ⟨results, e, m, log, run, hlog, h, horder⟩ :=
    arrivals_inOrder calls (new_represents limits) hstart
  refine ⟨results, e, log, run, hlog, horder.nodup, fun locate side reaches => ?_, ?_, ?_⟩
  · rw [h.queue_eq]
    exact horder.queue (h.wf locate) side reaches
  · intro place locate orderId side limitPrice quantity output
    obtain ⟨e', run', _, _⟩ :=
      submitLimit_simulates h place locate orderId side limitPrice quantity output
    exact ⟨_, _, e', run', horder.submitLimit_fills (h.wf locate) _ _ _ _ _⟩
  · intro locate side quantity output
    obtain ⟨e', run', _, _⟩ := submitMarket_simulates h locate side quantity output
    exact ⟨_, _, e', run', horder.submitMarket_fills (h.wf locate) _ _ _⟩

end MatchingEngine

end Lob
