import Lob.Book.Effects
import Lob.Engine.Lifecycle

/-!
# The share ledger

What the engine reports to its callers accounts for every share in its books: the shares at rest are
those reported to come to rest, less those reported executed, cancelled or filled, and less those of
the orders that were deleted or replaced.
-/

namespace Lob

open Basis ReferenceEngine

/-! ## The reference book -/

namespace ReferenceBook

variable {r : ReferenceBook} {id : OrderId} {order : ReferenceOrder} {side : Side} {price : Price}
  {quantity : Quantity}

/-- The shares at rest. -/
def restingShares (r : ReferenceBook) : ℕ := total (fun order => order.quantity.toNat) r.orders

/-- The shares of an order, none where it does not rest. -/
def heldBy (r : ReferenceBook) (id : OrderId) : ℕ := (r.order id).elim 0 OrderView.held

theorem heldBy_of_lookup (h : r.orders.lookup id = some order) :
    r.heldBy id = order.quantity.toNat := by
  unfold heldBy
  rw [order_eq h]
  rfl

theorem add_restingShares (hok : (r.add id side price quantity).1 = true) :
    (r.add id side price quantity).2.restingShares = r.restingShares + quantity.toNat := by
  obtain ⟨_, hcon, hr⟩ := add_accepted hok
  rw [hr]
  exact total_insert_new _ (lookup_of_not_contains hcon)

theorem erase_restingShares (hok : (r.erase id).1 = true) :
    (r.erase id).2.restingShares + r.heldBy id = r.restingShares := by
  obtain ⟨order, hlook⟩ := erase_accepted hok
  rw [erase_of_lookup hlook, heldBy_of_lookup hlook]
  unfold restingShares
  exact total_erase hlook

theorem setOrder_restingShares (hlook : r.orders.lookup id = some order) (order' : ReferenceOrder) :
    (r.setOrder id order').restingShares + order.quantity.toNat =
      r.restingShares + order'.quantity.toNat := by
  unfold restingShares
  exact total_insert_old order' hlook

theorem cancel_restingShares (hok : (r.cancel id quantity).1 = true) :
    (r.cancel id quantity).2.restingShares + quantity.toNat = r.restingShares := by
  obtain ⟨order, hlook, _, hle, hr⟩ := cancel_accepted hok
  rw [hr]
  split_ifs with hfull
  · have herase : (r.erase id).2.restingShares + r.heldBy id = r.restingShares :=
      erase_restingShares (by rw [erase_of_lookup hlook])
    rw [heldBy_of_lookup hlook] at herase
    rw [hfull]
    exact herase
  · have hset := setOrder_restingShares hlook { order with quantity := order.quantity - quantity }
    have hsub : (order.quantity - quantity).toNat + quantity.toNat = order.quantity.toNat := by
      bv_omega
    simp only at hset
    omega

theorem replace_restingShares {newId : OrderId} (hok : (r.replace id newId price quantity).1 = true) :
    (r.replace id newId price quantity).2.restingShares + r.heldBy id =
      r.restingShares + quantity.toNat := by
  obtain ⟨order, hlook⟩ := replace_accepted hok
  rw [heldBy_of_lookup hlook]
  by_cases hne : id = newId
  · subst hne
    rw [replace_self hlook hok]
    split_ifs
    · exact setOrder_restingShares hlook _
    · exact setOrder_restingShares hlook ⟨order.side, price, quantity⟩
  · obtain ⟨hnew, hr⟩ := replace_of_ne hlook hne hok
    have hadded : (r.setOrder newId ⟨order.side, price, quantity⟩).restingShares =
        r.restingShares + quantity.toNat := total_insert_new _ hnew
    have hlook' : (r.setOrder newId ⟨order.side, price, quantity⟩).orders.lookup id = some order :=
      (Finmap.lookup_insert_of_ne _ hne).trans hlook
    rw [hr, ← hadded]
    unfold restingShares
    exact total_erase hlook'

/-- A sweep takes from the book what it fills. -/
theorem WF.take_restingShares (h : r.WF) (side : Side) (reaches : Price → Bool) (n : ℕ) :
    (r.take (greedy OrderView.held (r.queue side reaches) n)).restingShares +
      ((greedy OrderView.held (r.queue side reaches) n).map Prod.snd).sum = r.restingShares := by
  induction n using Nat.strong_induction_on generalizing r with
  | _ n ih =>
    by_cases hn : n = 0
    · rw [hn, greedy_zero]
      rfl
    cases hQ : r.queue side reaches with
    | nil => rfl
    | cons v Q =>
      obtain ⟨hok, ht, hgreedy, _⟩ := h.sweep_step hQ hn
      obtain ⟨_, _, hpos, _, _⟩ := h.execute_head hQ
      have hrest := ih (n - min n v.held) (by omega) ht.wf
      have hone : (r.execute v.orderId (BitVec.ofNat 32 (min n v.held))).2.restingShares +
          (BitVec.ofNat 32 (min n v.held)).toNat = r.restingShares := cancel_restingShares hok
      rw [toNat_ofNat_min] at hone
      rw [hgreedy, List.map_cons, List.sum_cons]
      change ((r.execute v.orderId _).2.take _).restingShares + _ = _
      dsimp only
      omega

end ReferenceBook

/-! ## The shares that a call reports -/

/-- The shares of a submitted order that rest. -/
def CallResult.resting : CallResult → ℕ
  | .matched result _ => result.resting.toNat
  | _ => 0

/-- The shares of a submitted order that are filled. -/
def CallResult.filled : CallResult → ℕ
  | .matched result _ => result.filled.toNat
  | _ => 0

/-- The shares that come to rest by a call. -/
def EngineCall.credit (result : CallResult) : EngineCall → ℕ
  | .apply event =>
    match event with
    | .addOrder message => if result.action = some .Added then message.shares.toNat else 0
    | .addAttributedOrder message => if result.action = some .Added then message.shares.toNat else 0
    | .orderReplace message => if result.action = some .Replaced then message.shares.toNat else 0
    | _ => 0
  | .submitLimit _ _ _ _ _ _ => result.resting
  | _ => 0

/-- The shares that a call takes away, where `held` are the shares of the orders before it. -/
def EngineCall.debit (held : OrderId → ℕ) (result : CallResult) : EngineCall → ℕ
  | .apply event =>
    match event with
    | .orderExecuted message =>
      if result.action = some .Executed then message.executedShares.toNat else 0
    | .orderExecutedWithPrice message =>
      if result.action = some .Executed then message.executedShares.toNat else 0
    | .orderCancel message =>
      if result.action = some .Cancelled then message.canceledShares.toNat else 0
    | .orderDelete message => if result.action = some .Deleted then held message.orderReference else 0
    | .orderReplace message =>
      if result.action = some .Replaced then held message.originalOrderReference else 0
    | _ => 0
  | .submitLimit _ _ _ _ _ _ => result.filled
  | .submitMarket _ _ _ _ => result.filled
  | .clear => 0

/-! ## The reference engine -/

namespace ReferenceEngine

variable {m m' : ReferenceEngine} {locate : StockLocate}

/-- The shares of a book before and after a call balance. -/
def Balances (locate : StockLocate) (m m' : ReferenceEngine) (debit credit : ℕ) : Prop :=
  (m'.book locate).restingShares + debit = (m.book locate).restingShares + credit

theorem add_balances (reference : OrderId) (side : Side) (price : Price) (shares : Quantity) :
    Balances locate m (m.add locate reference side price shares).2 0
      (if some (m.add locate reference side price shares).1.action = some .Added then shares.toNat
        else 0) := by
  unfold Balances
  by_cases hcan : m.CanCreateOrder locate
  · obtain ⟨hresult, hbook⟩ := add_eq reference side price shares hcan
    rw [hresult, hbook]
    cases hok : ((m.book locate).add reference side price shares).1 with
    | true => exact ReferenceBook.add_restingShares hok
    | false =>
      rw [ReferenceBook.add_refused hok]
      rfl
  · rw [show m.add locate reference side price shares = (rejected locate, m) from if_neg hcan]
    rfl

theorem update_balances (action : ApplyAction) (operation : ReferenceBook → Bool × ReferenceBook)
    (debit credit : ℕ) (haction : action ≠ .Rejected) (hempty : operation .empty = (false, .empty))
    (hrefused : ∀ r, (operation r).1 = false → (operation r).2 = r)
    (hok : (operation (m.book locate)).1 = true → (operation (m.book locate)).2.restingShares + debit =
      (m.book locate).restingShares + credit) :
    Balances locate m (m.update locate action operation).2
      (if some (m.update locate action operation).1.action = some action then debit else 0)
      (if some (m.update locate action operation).1.action = some action then credit else 0) := by
  obtain ⟨hresult, hbook⟩ := update_eq m locate action hempty hrefused
  unfold Balances
  rw [hresult, hbook]
  cases hop : (operation (m.book locate)).1 with
  | true =>
    rw [if_pos rfl, if_pos rfl, if_pos rfl]
    exact hok hop
  | false =>
    have hne : ¬some (rejected locate).action = some action := fun e => haction (Option.some.inj e).symm
    rw [if_neg Bool.false_ne_true, if_neg hne, if_neg hne, hrefused _ hop]

/-- `E`, `C` and `X`. -/
theorem reduce_balances (action : ApplyAction) (haction : action ≠ .Rejected) (reference : OrderId)
    (shares : Quantity) :
    Balances locate m (m.update locate action fun r => r.cancel reference shares).2
      (if some (m.update locate action fun r => r.cancel reference shares).1.action = some action
        then shares.toNat else 0) 0 := by
  have hbalances : Balances locate m _ _ _ :=
    update_balances action (fun r => r.cancel reference shares) shares.toNat 0 haction rfl
      (fun r => ReferenceBook.cancel_refused) fun hok => ReferenceBook.cancel_restingShares hok
  rwa [ite_self] at hbalances

theorem swept_balances (hwf : (m.book locate).WF) (side : Side) (reaches : Price → Bool)
    (quantity : Quantity) (capacity : ℕ) :
    Balances locate m (m.swept locate side reaches quantity)
      (matchResult quantity capacity (m.taken locate side reaches quantity)).filled.toNat 0 := by
  have htake := hwf.take_restingShares (opposite side) reaches quantity.toNat
  have hfilled : (matchResult quantity capacity (m.taken locate side reaches quantity)).filled.toNat =
      ((m.taken locate side reaches quantity).map Prod.snd).sum :=
        MatchingEngine.toNat_ofNat_of_le MatchingEngine.sum_taken_le
  unfold Balances
  rw [swept_book, if_pos rfl, hfilled]
  exact htake

theorem submitMarket_balances (hwf : (m.book locate).WF) (side : Side) (quantity : Quantity)
    (output : List Fill) :
    Balances locate m (m.submitMarket locate side quantity output).2
      (m.submitMarket locate side quantity output).1.1.filled.toNat 0 := by
  unfold submitMarket
  split_ifs
  · exact rfl
  · exact swept_balances hwf side _ quantity output.length

theorem submitLimit_balances (hwf : (m.book locate).WF) (orderId : OrderId) (side : Side)
    (limitPrice : Price) (quantity : Quantity) (output : List Fill) :
    Balances locate m (m.submitLimit locate orderId side limitPrice quantity output).2
      (m.submitLimit locate orderId side limitPrice quantity output).1.1.filled.toNat
      (m.submitLimit locate orderId side limitPrice quantity output).1.1.resting.toNat := by
  have hcases := submitLimit_cases m locate orderId side limitPrice quantity output
  have hswept := swept_balances hwf side (reach true side limitPrice) quantity output.length
  generalize m.submitLimit locate orderId side limitPrice quantity output = out at hcases ⊢
  obtain ⟨⟨result, output'⟩, m'⟩ := out
  simp only at hcases ⊢
  cases hcases with
  | refused => exact rfl
  | filled h =>
    rw [h]
    exact hswept
  | capped h hcan => exact hswept
  | rests h hcan hok =>
    have hadd := ReferenceBook.add_restingShares hok
    unfold Balances at hswept ⊢
    rw [setBook_book, hadd]
    omega

/-- **One call** balances. -/
theorem call_balances (hwf : (m.book locate).WF) {call : EngineCall}
    (hcall : call.locate = some locate) :
    Balances locate m (call.onReference m).2
      (call.debit (m.book locate).heldBy (call.onReference m).1)
      (call.credit (call.onReference m).1) := by
  cases call with
  | clear => cases hcall
  | submitLimit locate orderId side limitPrice quantity output =>
    cases hcall
    exact submitLimit_balances hwf _ _ _ _ _
  | submitMarket locate side quantity output =>
    cases hcall
    exact submitMarket_balances hwf _ _ _
  | apply event =>
    cases hcall
    cases event with
    | addOrder message => exact add_balances _ _ _ _
    | addAttributedOrder message => exact add_balances _ _ _ _
    | orderExecuted message => exact reduce_balances .Executed nofun _ _
    | orderExecutedWithPrice message => exact reduce_balances .Executed nofun _ _
    | orderCancel message => exact reduce_balances .Cancelled nofun _ _
    | orderDelete message =>
      have hbalances : Balances message.header.stockLocate m _ _ _ :=
        update_balances .Deleted (fun r => r.erase message.orderReference)
          ((m.book message.header.stockLocate).heldBy message.orderReference) 0 nofun rfl
          (fun r => ReferenceBook.erase_refused) fun hok => ReferenceBook.erase_restingShares hok
      rw [ite_self] at hbalances
      exact hbalances
    | orderReplace message =>
      exact update_balances .Replaced
        (fun r => r.replace message.originalOrderReference message.newOrderReference message.price
          message.shares) _ _ nofun rfl (fun r => ReferenceBook.replace_refused)
        fun hok => ReferenceBook.replace_restingShares hok
    | _ => exact rfl

end ReferenceEngine

/-! ## The engine -/

/-- The shares that rest in a book. -/
def OrderBook.restingShares (b : OrderBook) : ℕ :=
  ∑ id ∈ b.orders.keys, ((b.order id).toOption.join).elim 0 OrderView.held

theorem OrderBook.Observes.restingShares {b : OrderBook} {r : ReferenceBook} (h : b.Observes r) :
    b.restingShares = r.restingShares := by
  have hkeys : b.orders.keys = r.orders.keys := by
    ext id
    rw [mem_keys_iff, mem_keys_iff]
    exact Bool.eq_iff_iff.mp (h.contains id)
  unfold OrderBook.restingShares ReferenceBook.restingShares total
  rw [hkeys]
  refine Finset.sum_congr rfl fun id _ => ?_
  rw [h.order]
  show (r.order id).elim 0 OrderView.held = _
  unfold ReferenceBook.order
  cases r.orders.lookup id <;> rfl

namespace MatchingEngine

variable {limits : EngineLimits} {e : MatchingEngine} {m : ReferenceEngine}

/-- The shares that rest in the book of a locate. -/
def restingShares (e : MatchingEngine) (locate : StockLocate) : ℕ :=
  (e.findBook locate).elim 0 OrderBook.restingShares

/-- The shares of an order of a locate, none where it does not rest. -/
def heldBy (e : MatchingEngine) (locate : StockLocate) (id : OrderId) : ℕ :=
  (e.order locate id).elim 0 OrderView.held

theorem Holds.restingShares_eq (h : Holds e m) (locate : StockLocate) :
    e.restingShares locate = (m.book locate).restingShares := by
  unfold restingShares
  rcases h.observes locate with ⟨hfind, hbook⟩ | ⟨b, hfind, hb⟩
  · rw [hfind, hbook]
    rfl
  · rw [hfind]
    exact hb.restingShares

theorem Holds.heldBy_eq (h : Holds e m) (locate : StockLocate) :
    e.heldBy locate = (m.book locate).heldBy := by
  funext id
  unfold heldBy ReferenceBook.heldBy
  rw [h.order_eq]

/-- The balance of a locate over a run, by what its calls reported. -/
def ledger (locate : StockLocate) : List (Placement × EngineCall) → Engine ℤ
  | [] => return 0
  | (place, call) :: calls => do
    let e ← get
    let result ← call.onEngine (.reliable place)
    let balance ← ledger locate calls
    if call.locate = some locate then
      return (call.credit result : ℤ) - call.debit (e.heldBy locate) result + balance
    else return balance

/-- The ledger of a run, by induction on it. -/
theorem ledger_balances (locate : StockLocate) (calls : List (Placement × EngineCall))
    (hcalls : ∀ call ∈ calls, call.2 ≠ .clear) :
    ∀ {e m}, Represents e m → ∃ results e' balance, (runCalls calls).run e = .ok results e' ∧
      (ledger locate calls).run e = .ok balance e' ∧
      (e'.restingShares locate : ℤ) = e.restingShares locate + balance := by
  induction calls with
  | nil => exact fun {e m} _ => ⟨_, e, 0, rfl, rfl, (add_zero _).symm⟩
  | cons head calls ih =>
    obtain ⟨place, call⟩ := head
    intro e m h
    obtain ⟨e₁, run₁, h₁⟩ := call_simulates h place call
    obtain ⟨results, e₂, balance, run₂, hledger, hbalance⟩ :=
      ih (fun c hc => hcalls c (List.mem_cons_of_mem _ hc)) h₁
    have hrun : (runCalls ((place, call) :: calls)).run e =
        .ok ((call.onReference m).1 :: results) e₂ := by
      unfold runCalls
      rw [run_bind_ok run₁, run_bind_ok run₂]
      rfl
    have hstart : (ledger locate ((place, call) :: calls)).run e =
        (if call.locate = some locate then
          (return (call.credit (call.onReference m).1 : ℤ) -
            call.debit (e.heldBy locate) (call.onReference m).1 + balance : Engine ℤ)
        else return balance).run e₂ := by
      unfold ledger
      rw [run_get_bind,
        run_bind_ok run₁, run_bind_ok hledger]
    rw [h₁.restingShares_eq] at hbalance
    rw [h.restingShares_eq]
    by_cases hown : call.locate = some locate
    · rw [if_pos hown] at hstart
      refine ⟨_, e₂, _, hrun, hstart, ?_⟩
      have hcall := call_balances (h.toHolds.wf locate) hown
      unfold Balances at hcall
      rw [h.toHolds.heldBy_eq]
      omega
    · rw [if_neg hown] at hstart
      refine ⟨_, e₂, _, hrun, hstart, ?_⟩
      obtain ⟨own, hlocate⟩ : ∃ own, call.locate = some own := by
        have hne := hcalls _ List.mem_cons_self
        cases call with
        | clear => exact absurd rfl hne
        | _ => exact ⟨_, rfl⟩
      rw [hbalance, (call_elsewhere hlocate).book fun e => hown (by rw [hlocate, e])]

/-- **The share ledger.** After every run without `clear` the shares that rest in a book are the
balance of what the calls to its locate reported. -/
theorem shares_balance (limits : EngineLimits) (calls : List (Placement × EngineCall))
    (hcalls : ∀ call ∈ calls, call.2 ≠ .clear) (locate : StockLocate) :
    ∃ results e balance, (runCalls calls).run (new limits) = .ok results e ∧
      (ledger locate calls).run (new limits) = .ok balance e ∧
      (e.restingShares locate : ℤ) = balance := by
  obtain ⟨results, e, balance, run, hledger, hbalance⟩ :=
    ledger_balances locate calls hcalls (new_represents limits)
  refine ⟨results, e, balance, run, hledger, ?_⟩
  rw [hbalance]
  exact zero_add _

/-- A bid of five shares, two of which are sold. -/
theorem shares_balance_two : ∃ results e balance,
    (runCalls [(.bump, .submitLimit 1 7 .Buy 100 5 []), (.bump, .submitMarket 1 .Sell 2 [])]).run
      (new {}) = .ok results e ∧
    (ledger 1 [(.bump, .submitLimit 1 7 .Buy 100 5 []), (.bump, .submitMarket 1 .Sell 2 [])]).run
      (new {}) = .ok balance e ∧ (e.restingShares 1 : ℤ) = balance :=
  shares_balance {} _ (by simp) 1

end MatchingEngine

end Lob
