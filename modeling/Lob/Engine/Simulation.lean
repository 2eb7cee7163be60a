import Lob.Engine.Reference

/-!
# The engine simulates the reference engine

`Represents e m`: the engine has a book exactly where the reference engine has one, each book
represents its reference book, and the counter is the number of resting orders. Every call keeps it
and returns what the reference engine returns.
-/

namespace Lob

open Basis ReferenceEngine

namespace MatchingEngine

/-- The books of `e` represent those of `m`; the counter is left out. -/
structure Holds (e : MatchingEngine) (m : ReferenceEngine) : Prop where
  limits : e.limits = m.limits
  missing : ∀ locate, m.books.lookup locate = none → e.books.lookup locate = none
  book : ∀ locate r, m.books.lookup locate = some r →
    ∃ b, e.books.lookup locate = some (some b) ∧ b.Represents r ∧ b.Tight r

structure Represents (e : MatchingEngine) (m : ReferenceEngine) : Prop extends Holds e m where
  count : e.restingOrderCount.toNat = m.restingOrders

variable {e e' : MatchingEngine} {m : ReferenceEngine} {locate : StockLocate} {r : ReferenceBook}
  {b : OrderBook}

theorem Holds.findBook_none (h : Holds e m) (hm : m.books.lookup locate = none) :
    e.findBook locate = none := by
  unfold findBook; rw [h.missing _ hm]; rfl

theorem Holds.findBook_some (h : Holds e m) (hm : m.books.lookup locate = some r) :
    ∃ b, e.books.lookup locate = some (some b) ∧ e.findBook locate = some b ∧ b.Represents r ∧
      b.Tight r := by
  obtain ⟨b, hb, hrep⟩ := h.book _ _ hm
  exact ⟨b, hb, by unfold findBook; rw [hb]; rfl, hrep⟩

theorem Holds.isSome_lookup (h : Holds e m) (locate : StockLocate) :
    (e.books.lookup locate).isSome = (m.books.lookup locate).isSome := by
  cases hm : m.books.lookup locate with
  | none => rw [h.missing _ hm]; rfl
  | some r =>
    obtain ⟨b, hb, _⟩ := h.findBook_some hm
    rw [hb]; rfl

theorem Holds.isSome_findBook (h : Holds e m) (locate : StockLocate) :
    (e.findBook locate).isSome = (m.books.lookup locate).isSome := by
  cases hm : m.books.lookup locate with
  | none => rw [h.findBook_none hm]; rfl
  | some r =>
    obtain ⟨b, _, hb, _⟩ := h.findBook_some hm
    rw [hb]; rfl

theorem Holds.instrumentCount (h : Holds e m) : e.instrumentCount = size m.books :=
  size_congr h.isSome_lookup

theorem Represents.canCreateOrder_iff (h : Represents e m) (locate : StockLocate) :
    e.canCreateOrder locate = true ↔ m.CanCreateOrder locate := by
  unfold MatchingEngine.canCreateOrder ReferenceEngine.CanCreateOrder
  rw [h.isSome_findBook, h.instrumentCount, h.limits, ← h.count]
  by_cases hc : e.restingOrderCount ≥ m.limits.maxRestingOrders
  · rw [if_pos hc]
    have : ¬e.restingOrderCount.toNat < m.limits.maxRestingOrders.toNat := Nat.not_lt.mpr hc
    simp [this]
  · rw [if_neg hc]
    have : e.restingOrderCount.toNat < m.limits.maxRestingOrders.toNat := BitVec.not_le.mp hc
    simp [this]

theorem Holds.of_books (h : Holds e m) (hb : e'.books = e.books) (hl : e'.limits = e.limits) :
    Holds e' m where
  limits := hl.trans h.limits
  missing locate hm := by rw [hb]; exact h.missing locate hm
  book locate r hm := by rw [hb]; exact h.book locate r hm

/-- A book is stored at `locate`. -/
theorem Holds.setBook (h : Holds e m) (hrep : b.Represents r) (ht : b.Tight r)
    (locate : StockLocate) :
    Holds { e with books := e.books.insert locate (some b) } (m.setBook locate r) where
  limits := h.limits
  missing locate' hm := by
    rw [setBook_lookup] at hm
    rw [lookup_insert_ite]
    split_ifs at hm ⊢ with e
    exact h.missing _ hm
  book locate' r' hm := by
    rw [setBook_lookup] at hm
    rw [lookup_insert_ite]
    split_ifs at hm ⊢ with e
    · cases hm
      exact ⟨b, rfl, hrep, ht⟩
    · exact h.book _ _ hm

/-! ## Operations on a book -/

theorem readBook_ok {α : Type} {f : OrderBook → Except Fault α} {a : α}
    (h : e.findBook locate = some b) (hf : f b = .ok a) :
    (readBook locate f).run e = .ok a e :=
  observe_ok (by rw [h, deref_some, except_ok_bind, hf])

/-- The parts of the engine that an operation on books leaves alone. -/
structure SameCounters (e e' : MatchingEngine) : Prop where
  restingOrderCount : e'.restingOrderCount = e.restingOrderCount
  stats : e'.stats = e.stats

theorem onBook_ok {operation : Book Bool} {result : Bool × ReferenceBook} (h : Holds e m)
    (hm : m.books.lookup locate = some r)
    (hop : ∀ b, b.Represents r → OrderBook.Returns operation b r result) :
    ∃ e', (onBook locate operation).run e = .ok result.1 e' ∧
      Holds e' (m.setBook locate result.2) ∧ SameCounters e e' ∧ (result.1 = false → e' = e) := by
  obtain ⟨b, hb, hfind, hrep, ht⟩ := h.findBook_some hm
  obtain ⟨b', run, hrep', ht', hsame⟩ := hop b hrep
  refine ⟨_, focus_ok (by rw [hfind]; rfl) run, h.setBook hrep' (ht' ht) locate, ⟨rfl, rfl⟩, ?_⟩
  intro hfalse
  rw [hsame hfalse, insert_self hb]

theorem ensureBook_ok (h : Holds e m) (place : Placement) (locate : StockLocate) :
    ∃ e', (ensureBook (.reliable place) locate).run e = .ok () e' ∧
      Holds e' (m.setBook locate (m.book locate)) ∧ SameCounters e e' ∧
      (m.books.lookup locate ≠ none → e' = e) := by
  cases hm : m.books.lookup locate with
  | none =>
    have hbook : m.book locate = .empty := by unfold ReferenceEngine.book; rw [hm]; rfl
    refine ⟨{ e with books := e.books.insert locate (some .empty) }, ?_, ?_, ⟨rfl, rfl⟩, by simp⟩
    · unfold ensureBook
      rw [EStateM.run_bind]
      simp only [EStateM.run_get, h.missing _ hm]
      rw [run_bind_ok (Alloc.request_ok rfl e)]
      rw [EStateM.run_bind]
      show ((Alloc.reliable place).request .bookObject >>= _).run _ = _
      rw [run_bind_ok (Alloc.request_ok rfl _), run_bind_ok (Alloc.request_ok rfl _)]
      show EStateM.Result.ok () { e with books := (e.books.insert locate none).insert locate _ } = _
      rw [Finmap.insert_insert]
    · rw [hbook]
      exact h.setBook OrderBook.empty_represents OrderBook.empty_tight locate
  | some r =>
    obtain ⟨b, hb, _⟩ := h.findBook_some hm
    refine ⟨e, ?_, ?_, ⟨rfl, rfl⟩, fun _ => rfl⟩
    · unfold ensureBook
      rw [EStateM.run_bind]
      simp only [EStateM.run_get, hb]
      rfl
    · rw [book_of_lookup hm, setBook_same hm]
      exact h

/-! ## `apply` -/

/-- An event handler returns what the reference engine returns, keeps the representation and advances
the counter of the outcome. A refusal that leaves the reference engine alone leaves the engine alone. -/
def Applies (handler : Engine ApplyResult) (e : MatchingEngine) (m : ReferenceEngine)
    (result : ApplyResult × ReferenceEngine) : Prop :=
  ∃ e', handler.run e = .ok result.1 e' ∧ Represents e' result.2 ∧
    e'.stats = e.stats.tally result.1.action ∧
    (result.1.changedBook = false → result.2 = m → { e' with stats := e.stats } = e)

theorem reject_applies (h : Represents e m) (locate : StockLocate) :
    Applies (reject locate) e m (rejected locate, m) :=
  ⟨_, rfl, ⟨h.toHolds.of_books rfl rfl, h.count⟩, rfl, fun _ _ => rfl⟩

theorem ignore_applies (h : Represents e m) (locate : StockLocate) :
    Applies (ignore locate) e m (ignored locate, m) :=
  ⟨_, rfl, ⟨h.toHolds.of_books rfl rfl, h.count⟩, rfl, fun _ _ => rfl⟩

theorem toNat_add_one {x y : BitVec 64} (h : x.toNat < y.toNat) : (x + 1).toNat = x.toNat + 1 := by
  have := y.isLt
  rw [BitVec.toNat_add, Nat.mod_eq_of_lt]
  · rfl
  · show x.toNat + 1 < _
    omega

theorem toNat_sub_one {x : BitVec 64} (h : 0 < x.toNat) : (x - 1).toNat + 1 = x.toNat := by
  bv_omega

/-- A new order is offered to the book of its locate, which is made where there is none. -/
theorem addToBook_ok (h : Represents e m) (place : Placement) (locate : StockLocate)
    (reference : OrderId) (side : Side) (price : Price) (shares : Quantity) :
    ∃ e₁ e₂, (ensureBook (.reliable place) locate).run e = .ok () e₁ ∧
      (onBook locate (OrderBook.add (.reliable place) reference side price shares)).run e₁ =
        .ok ((m.book locate).add reference side price shares).1 e₂ ∧
      Holds e₂ (m.setBook locate ((m.book locate).add reference side price shares).2) ∧
      e₂.restingOrderCount = e.restingOrderCount ∧ e₂.stats = e.stats ∧
      (((m.book locate).add reference side price shares).1 = false →
        m.books.lookup locate ≠ none → e₂ = e) := by
  obtain ⟨e₁, run₁, h₁, c₁, same₁⟩ := ensureBook_ok h.toHolds place locate
  obtain ⟨e₂, run₂, h₂, c₂, same₂⟩ := onBook_ok h₁ (by rw [setBook_lookup, if_pos rfl])
    fun b hb => OrderBook.add_returns place reference side price shares hb
  rw [setBook_setBook] at h₂
  exact ⟨e₁, e₂, run₁, run₂, h₂, c₂.restingOrderCount.trans c₁.restingOrderCount,
    c₂.stats.trans c₁.stats, fun hadd hne => (same₂ hadd).trans (same₁ hne)⟩

/-- An accepted order is one more, below the limit. -/
theorem Represents.count_added (h : Represents e m) (hcan : m.CanCreateOrder locate)
    {reference : OrderId} {side : Side} {price : Price} {shares : Quantity}
    (hadd : ((m.book locate).add reference side price shares).1 = true) :
    (e.restingOrderCount + 1).toNat =
      (m.setBook locate ((m.book locate).add reference side price shares).2).restingOrders := by
  have hcount := ReferenceBook.add_orderCount hadd
  have hsum := restingOrders_setBook_book (m := m) locate
    ((m.book locate).add reference side price shares).2
  rw [toNat_add_one (y := m.limits.maxRestingOrders) (by rw [h.count]; exact hcan.1), h.count]
  omega

theorem applyAdd_applies (h : Represents e m) (place : Placement) (locate : StockLocate)
    (reference : OrderId) (side : Side) (price : Price) (shares : Quantity) :
    Applies (applyAdd (.reliable place) locate reference side price shares) e m
      (m.add locate reference side price shares) := by
  have hstart : (applyAdd (.reliable place) locate reference side price shares).run e =
      (if (!e.canCreateOrder locate) = true then reject locate
      else ensureBook (.reliable place) locate >>= fun _ =>
        onBook locate (OrderBook.add (.reliable place) reference side price shares) >>= fun added =>
        if (!added) = true then reject locate
        else modifyGet fun e => ((⟨.Added, locate, true⟩ : ApplyResult), { e with
          restingOrderCount := e.restingOrderCount + 1
          stats.adds := e.stats.adds + 1 })).run e := rfl
  unfold ReferenceEngine.add
  by_cases hcan : m.CanCreateOrder locate
  swap
  · obtain ⟨e', run, hrest⟩ := reject_applies h locate
    rw [if_neg hcan]
    rw [← h.canCreateOrder_iff, Bool.not_eq_true] at hcan
    exact ⟨e', by rw [hstart, hcan]; exact run, hrest⟩
  rw [if_pos hcan]
  rw [(h.canCreateOrder_iff locate).mpr hcan, if_neg (by simp)] at hstart
  obtain ⟨e₁, e₂, run₁, run₂, h₂, hcount, hstats, hsame⟩ :=
    addToBook_ok h place locate reference side price shares
  rw [run_bind_ok run₁, run_bind_ok run₂] at hstart
  cases hadd : ((m.book locate).add reference side price shares).1 with
  | false =>
    have hsum := restingOrders_setBook_book (m := m) locate (m.book locate)
    rw [hadd] at hstart
    rw [ReferenceBook.add_refused hadd] at h₂ ⊢
    refine ⟨_, hstart, ⟨h₂.of_books rfl rfl, ?_⟩, ?_, fun _ hm => ?_⟩
    · show e₂.restingOrderCount.toNat = (m.setBook locate (m.book locate)).restingOrders
      rw [hcount, h.count]
      omega
    · show ReplayStats.tally e₂.stats .Rejected = _
      rw [hstats]
      rfl
    · -- the book was there before
      have hne : m.books.lookup locate ≠ none := by
        intro hnone
        have := congrArg (fun m => m.books.lookup locate) hm
        simp only [setBook_lookup, if_pos] at this
        rw [hnone] at this
        cases this
      rw [hsame hadd hne]
  | true =>
    rw [hadd] at hstart
    refine ⟨_, hstart, ⟨h₂.of_books rfl rfl, ?_⟩, ?_, fun hf => by cases hf⟩
    · show (e₂.restingOrderCount + 1).toNat = _
      rw [hcount]
      exact h.count_added hcan hadd
    · show ReplayStats.tally e₂.stats .Added = _
      rw [hstats]
      rfl

/-- The events on a book that exists: the operation, then `finish` for an accepted one. -/
theorem update_applies {operation : Book Bool} {f : ReferenceBook → Bool × ReferenceBook}
    {action : ApplyAction} {finish : MatchingEngine → MatchingEngine} (h : Represents e m)
    (hm : m.books.lookup locate = some r)
    (hop : ∀ b, b.Represents r → OrderBook.Returns operation b r (f r))
    (hbooks : ∀ e, (finish e).books = e.books) (hlimits : ∀ e, (finish e).limits = e.limits)
    (hstats : ∀ e, (finish e).stats = e.stats.tally action)
    (hcount : (f r).1 = true → ∀ e', e'.restingOrderCount = e.restingOrderCount →
      (finish e').restingOrderCount.toNat + r.orderCount =
        e.restingOrderCount.toNat + (f r).2.orderCount) :
    Applies (onBook locate operation >>= fun changed =>
        if (!changed) = true then reject locate
        else modifyGet fun e => (⟨action, locate, true⟩, finish e)) e m
      (m.update locate action f) := by
  obtain ⟨e₁, run₁, h₁, c₁, same₁⟩ := onBook_ok h.toHolds hm hop
  unfold ReferenceEngine.update Applies
  rw [hm, run_bind_ok run₁]
  simp only
  cases hf : (f r).1 with
  | false =>
    obtain rfl := same₁ hf
    exact reject_applies h locate
  | true =>
    refine ⟨finish e₁, rfl, ⟨h₁.of_books (hbooks e₁) (hlimits e₁), ?_⟩, ?_, fun hc => by cases hc⟩
    · have hsum := restingOrders_setBook hm (f r).2
      have := hcount hf e₁ c₁.restingOrderCount
      have := h.count
      show _ = (m.setBook locate (f r).2).restingOrders
      omega
    · rw [hstats, c₁.stats]
      rfl

theorem update_missing {action : ApplyAction} {f : ReferenceBook → Bool × ReferenceBook}
    (hm : m.books.lookup locate = none) : m.update locate action f = (rejected locate, m) := by
  unfold ReferenceEngine.update; rw [hm]

theorem Holds.findOrder_none (h : Holds e m) (hm : m.books.lookup locate = none)
    (reference : OrderId) :
    (observe fun e => e.findOrder locate reference : Engine _).run e = .ok none e :=
  observe_ok (by unfold findOrder; rw [h.findBook_none hm]; rfl)

theorem Holds.findOrder_some (h : Holds e m) (hm : m.books.lookup locate = some r)
    (reference : OrderId) :
    (observe fun e => e.findOrder locate reference : Engine _).run e =
      .ok (r.order reference) e := by
  obtain ⟨b, _, hfind, hrep, _⟩ := h.findBook_some hm
  exact observe_ok (by unfold findOrder; rw [hfind]; exact hrep.observes.order reference)

theorem applyReduction_applies (h : Represents e m) {operation : Book Bool}
    {tally : ReplayStats → ReplayStats} {action : ApplyAction} (reference : OrderId)
    (shares : Quantity)
    (hop : ∀ b r, b.Represents r → OrderBook.Returns operation b r (r.cancel reference shares))
    (htally : ∀ stats, tally stats = stats.tally action) :
    Applies (applyReduction locate reference shares operation tally action) e m
      (m.update locate action fun r => r.cancel reference shares) := by
  cases hm : m.books.lookup locate with
  | none =>
    rw [update_missing hm]
    unfold Applies applyReduction
    rw [run_bind_ok (h.findOrder_none hm reference)]
    exact reject_applies h locate
  | some r =>
    cases hr : r.orders.lookup reference with
    | none =>
      have horder : r.order reference = none := by unfold ReferenceBook.order; rw [hr]; rfl
      have hcancel : r.cancel reference shares = (false, r) := by
        unfold ReferenceBook.cancel; rw [hr]
      unfold Applies ReferenceEngine.update applyReduction
      rw [run_bind_ok (h.findOrder_some hm reference), horder, hm]
      simp only [hcancel]
      exact reject_applies h locate
    | some order =>
      set finish : MatchingEngine → MatchingEngine := fun e => { e with
        restingOrderCount := if order.quantity = shares then e.restingOrderCount - 1
          else e.restingOrderCount
        stats := tally e.stats } with hfinish
      have hrun : (applyReduction locate reference shares operation tally action).run e =
          (onBook locate operation >>= fun changed =>
            if (!changed) = true then reject locate
            else modifyGet fun e => (⟨action, locate, true⟩, finish e)).run e := by
        unfold applyReduction
        rw [run_bind_ok (h.findOrder_some hm reference), ReferenceBook.order_eq hr]
        simp only
        rw [EStateM.run_bind, EStateM.run_bind]
        cases (onBook locate operation).run e with
        | error => rfl
        | ok changed e' =>
          cases changed with
          | false => rfl
          | true =>
            by_cases hfull : order.quantity = shares
            · simp only [hfinish, if_pos hfull]; rfl
            · simp only [hfinish, if_neg hfull]; rfl
      unfold Applies
      rw [hrun]
      refine update_applies h hm (fun b hb => hop b r hb) (fun _ => rfl) (fun _ => rfl)
        (fun e => htally e.stats) fun hok e' he' => ?_
      have hcancel := ReferenceBook.cancel_orderCount hok hr
      have hle := orderCount_le hm
      have hcount := h.count
      show (if order.quantity = shares then e'.restingOrderCount - 1
        else e'.restingOrderCount).toNat + _ = _
      rw [he']
      by_cases hfull : shares = order.quantity
      · rw [if_pos hfull.symm]
        rw [if_pos hfull] at hcancel
        have := toNat_sub_one (x := e.restingOrderCount) (by omega)
        omega
      · rw [if_neg fun e => hfull e.symm]
        rw [if_neg hfull] at hcancel
        omega

theorem applyDelete_applies (h : Represents e m) (reference : OrderId) :
    Applies (applyDelete locate reference) e m
      (m.update locate .Deleted fun r => r.erase reference) := by
  unfold Applies
  cases hm : m.books.lookup locate with
  | none =>
    have hstart : (applyDelete locate reference).run e = (reject locate).run e := by
      unfold applyDelete
      rw [run_get_bind, h.findBook_none hm]
    rw [hstart, update_missing hm]
    exact reject_applies h locate
  | some r =>
    obtain ⟨b, _, hfind, _, _⟩ := h.findBook_some hm
    have hstart : (applyDelete locate reference).run e =
        (onBook locate (OrderBook.erase reference) >>= fun changed =>
          if (!changed) = true then reject locate
          else modifyGet fun e : MatchingEngine => (⟨.Deleted, locate, true⟩, { e with
            restingOrderCount := e.restingOrderCount - 1
            stats.deletes := e.stats.deletes + 1 })).run e := by
      unfold applyDelete
      rw [run_get_bind, hfind]
      rfl
    rw [hstart]
    refine update_applies h hm
      (fun b hb => OrderBook.erase_returns reference hb) (fun _ => rfl) (fun _ => rfl)
      (fun _ => rfl) fun hok e' he' => ?_
    have herase := ReferenceBook.erase_orderCount hok
    have hle := orderCount_le hm
    have hcount := h.count
    have := toNat_sub_one (x := e.restingOrderCount) (by omega)
    show (e'.restingOrderCount - 1).toNat + _ = _
    rw [he']
    omega

theorem applyReplace_applies (h : Represents e m) (place : Placement) (original new : OrderId)
    (price : Price) (shares : Quantity) :
    Applies (applyReplace (.reliable place) locate original new price shares) e m
      (m.update locate .Replaced fun r => r.replace original new price shares) := by
  unfold Applies
  cases hm : m.books.lookup locate with
  | none =>
    have hstart : (applyReplace (.reliable place) locate original new price shares).run e =
        (reject locate).run e := by
      unfold applyReplace
      rw [run_get_bind, h.findBook_none hm]
    rw [hstart, update_missing hm]
    exact reject_applies h locate
  | some r =>
    obtain ⟨b, _, hfind, _, _⟩ := h.findBook_some hm
    have hstart : (applyReplace (.reliable place) locate original new price shares).run e =
        (onBook locate (OrderBook.replace (.reliable place) original new price shares) >>=
          fun changed => if (!changed) = true then reject locate
          else modifyGet fun e : MatchingEngine => (⟨.Replaced, locate, true⟩, { e with
            stats.replaces := e.stats.replaces + 1 })).run e := by
      unfold applyReplace
      rw [run_get_bind, hfind]
      rfl
    rw [hstart]
    refine update_applies h hm
      (fun b hb => OrderBook.replace_returns place original new price shares hb) (fun _ => rfl)
      (fun _ => rfl) (fun _ => rfl) fun hok e' he' => ?_
    show e'.restingOrderCount.toNat + _ = _
    rw [he', ReferenceBook.replace_orderCount hok]

/-- **`apply`** returns what the reference engine returns and keeps the representation. -/
theorem apply_simulates (h : Represents e m) (place : Placement) (event : ItchEvent) :
    ∃ e', (apply (.reliable place) event).run e = .ok (m.apply event).1 e' ∧
      Represents e' (m.apply event).2 ∧ e'.stats = e.stats.record (m.apply event).1.action ∧
      ((m.apply event).1.changedBook = false → (m.apply event).2 = m →
        { e' with stats := e.stats } = e) := by
  set e₀ : MatchingEngine := { e with stats.messages := e.stats.messages + 1 } with he₀
  have h₀ : Represents e₀ m := ⟨h.toHolds.of_books rfl rfl, h.count⟩
  -- every handler runs after the message is counted
  have finish : ∀ {handler : Engine ApplyResult} {result : ApplyResult × ReferenceEngine},
      Applies handler e₀ m result → ∃ e', handler.run e₀ = .ok result.1 e' ∧
        Represents e' result.2 ∧ e'.stats = e.stats.record result.1.action ∧
        (result.1.changedBook = false → result.2 = m → { e' with stats := e.stats } = e) := by
    rintro handler result ⟨e', run, hrep, hstats, hsame⟩
    refine ⟨e', run, hrep, hstats, fun hc hm => ?_⟩
    have := congrArg (fun x : MatchingEngine => { x with stats := e.stats }) (hsame hc hm)
    exact this
  cases event with
  | addOrder message => exact finish (applyAdd_applies h₀ place _ _ _ _ _)
  | addAttributedOrder message => exact finish (applyAdd_applies h₀ place _ _ _ _ _)
  | orderExecuted message =>
    exact finish (applyReduction_applies h₀ _ _
      (fun b r hb => OrderBook.execute_returns _ _ hb) fun _ => rfl)
  | orderExecutedWithPrice message =>
    exact finish (applyReduction_applies h₀ _ _
      (fun b r hb => OrderBook.execute_returns _ _ hb) fun _ => rfl)
  | orderCancel message =>
    exact finish (applyReduction_applies h₀ _ _
      (fun b r hb => OrderBook.cancel_returns _ _ hb) fun _ => rfl)
  | orderDelete message => exact finish (applyDelete_applies h₀ _)
  | orderReplace message => exact finish (applyReplace_applies h₀ place _ _ _ _)
  | skippedMessage message => exact finish (ignore_applies h₀ _)
  | systemEvent message => exact finish (ignore_applies h₀ _)
  | stockDirectory message => exact finish (ignore_applies h₀ _)
  | tradingAction message => exact finish (ignore_applies h₀ _)
  | trade message => exact finish (ignore_applies h₀ _)
  | crossTrade message => exact finish (ignore_applies h₀ _)
  | brokenTrade message => exact finish (ignore_applies h₀ _)
  | netOrderImbalance message => exact finish (ignore_applies h₀ _)

end MatchingEngine

end Lob
