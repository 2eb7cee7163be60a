import Lob.Engine.Sweep

/-!
# Runs of the engine

A run is any sequence of calls from a fresh engine, with allocations that succeed. The reference
engine stays within its limits, and so does every engine a run reaches, whose counter is the number
of orders in its books.
-/

namespace Lob

open Basis

/-! ## Limits -/

/-- The engine has these limits and is within them. -/
structure ReferenceEngine.Bounded (limits : EngineLimits) (m : ReferenceEngine) : Prop where
  sameLimits : m.limits = limits
  restingOrders : m.restingOrders ≤ limits.maxRestingOrders.toNat
  instruments : size m.books ≤ limits.maxInstruments.toNat

namespace ReferenceBook

variable {r : ReferenceBook}

theorem add_orderCount_le (id : OrderId) (side : Side) (price : Price) (quantity : Quantity) :
    (r.add id side price quantity).2.orderCount ≤ r.orderCount + 1 := by
  cases ha : (r.add id side price quantity).1 with
  | false =>
    rw [add_refused ha]
    exact Nat.le_succ _
  | true => exact le_of_eq (add_orderCount ha)

theorem cancel_orderCount_le (id : OrderId) (quantity : Quantity) :
    (r.cancel id quantity).2.orderCount ≤ r.orderCount := by
  cases hc : (r.cancel id quantity).1 with
  | false => rw [cancel_refused hc]
  | true =>
    obtain ⟨order, hlook, _⟩ := cancel_accepted hc
    have := cancel_orderCount hc hlook
    omega

theorem take_orderCount_le (taken : List (OrderView × ℕ)) :
    (r.take taken).orderCount ≤ r.orderCount := by
  unfold take
  induction taken generalizing r with
  | nil => exact le_rfl
  | cons x taken ih => exact ih.trans (cancel_orderCount_le _ _)

end ReferenceBook

namespace ReferenceEngine

variable {limits : EngineLimits} {m : ReferenceEngine} {locate : StockLocate}
  {r r' : ReferenceBook}

theorem new_bounded (limits : EngineLimits) : Bounded limits (new limits) := by
  refine ⟨rfl, ?_, Nat.zero_le _⟩
  show total _ ∅ ≤ _
  rw [show total ReferenceBook.orderCount ∅ = 0 from rfl]
  exact Nat.zero_le _

/-- A book that does not grow. -/
theorem Bounded.setBook (h : Bounded limits m) (hm : m.books.lookup locate = some r)
    (hr : r'.orderCount ≤ r.orderCount) : Bounded limits (m.setBook locate r') where
  sameLimits := h.sameLimits
  restingOrders := by
    have := restingOrders_setBook hm r'
    have := h.restingOrders
    omega
  instruments := by
    show size (m.books.insert locate r') ≤ _
    rw [size_insert_old _ hm]
    exact h.instruments

/-- An order that the caps admit. -/
theorem Bounded.addOrder (h : Bounded limits m) (hcan : m.CanCreateOrder locate)
    (hr : r'.orderCount ≤ (m.book locate).orderCount + 1) : Bounded limits (m.setBook locate r') where
  sameLimits := h.sameLimits
  restingOrders := by
    have := restingOrders_setBook_book (m := m) locate r'
    have := hcan.1
    rw [h.sameLimits] at this
    omega
  instruments := by
    show size (m.books.insert locate r') ≤ _
    cases hm : m.books.lookup locate with
    | none =>
      have hroom := hcan.2
      rw [hm, h.sameLimits] at hroom
      rw [size_insert_new _ hm]
      exact hroom.resolve_left (by simp)
    | some r =>
      rw [size_insert_old _ hm]
      exact h.instruments

theorem Bounded.add (h : Bounded limits m) (reference : OrderId) (side : Side) (price : Price)
    (shares : Quantity) : Bounded limits (m.add locate reference side price shares).2 := by
  unfold ReferenceEngine.add
  by_cases hcan : m.CanCreateOrder locate
  · rw [if_pos hcan]
    exact h.addOrder hcan (ReferenceBook.add_orderCount_le _ _ _ _)
  · rw [if_neg hcan]
    exact h

theorem Bounded.update (h : Bounded limits m) (action : ApplyAction)
    {operation : ReferenceBook → Bool × ReferenceBook}
    (hop : ∀ r, (operation r).1 = true → (operation r).2.orderCount ≤ r.orderCount) :
    Bounded limits (m.update locate action operation).2 := by
  unfold ReferenceEngine.update
  cases hm : m.books.lookup locate with
  | none => exact h
  | some r =>
    simp only
    split_ifs with hok
    · exact h.setBook hm (hop r hok)
    · exact h

theorem Bounded.apply (h : Bounded limits m) (event : ItchEvent) :
    Bounded limits (m.apply event).2 := by
  cases event with
  | addOrder message => exact h.add _ _ _ _
  | addAttributedOrder message => exact h.add _ _ _ _
  | orderExecuted message =>
    exact h.update _ fun r _ => ReferenceBook.cancel_orderCount_le _ _
  | orderExecutedWithPrice message =>
    exact h.update _ fun r _ => ReferenceBook.cancel_orderCount_le _ _
  | orderCancel message => exact h.update _ fun r _ => ReferenceBook.cancel_orderCount_le _ _
  | orderDelete message =>
    refine h.update _ fun r hok => ?_
    have := ReferenceBook.erase_orderCount hok
    omega
  | orderReplace message =>
    exact h.update _ fun r hok => le_of_eq (ReferenceBook.replace_orderCount hok)
  | _ => exact h

theorem Bounded.swept (h : Bounded limits m) (side : Side) (reaches : Price → Bool)
    (quantity : Quantity) : Bounded limits (m.swept locate side reaches quantity) := by
  unfold ReferenceEngine.swept
  cases hm : m.books.lookup locate with
  | none => exact h
  | some r => exact h.setBook hm (ReferenceBook.take_orderCount_le _)

theorem Bounded.submitMarket (h : Bounded limits m) (side : Side) (quantity : Quantity)
    (output : List Fill) : Bounded limits (m.submitMarket locate side quantity output).2 := by
  unfold ReferenceEngine.submitMarket
  split_ifs
  · exact h
  · exact h.swept _ _ _

theorem Bounded.submitLimit (h : Bounded limits m) (orderId : OrderId) (side : Side)
    (limitPrice : Price)
    (quantity : Quantity) (output : List Fill) :
    Bounded limits (m.submitLimit locate orderId side limitPrice quantity output).2 := by
  unfold ReferenceEngine.submitLimit
  have hs : Bounded limits (m.swept locate side (reach true side limitPrice) quantity) :=
    h.swept _ _ _
  by_cases hbad : quantity = 0 ∨ (m.book locate).contains orderId = true
  · rw [if_pos hbad]
    exact h
  rw [if_neg hbad]
  simp only
  split_ifs with hdone hcan
  · exact hs
  · exact hs.addOrder hcan (ReferenceBook.add_orderCount_le _ _ _ _)
  · exact hs

end ReferenceEngine

/-! ## Calls -/

inductive EngineCall where
  | apply (event : ItchEvent)
  | submitLimit (locate : StockLocate) (orderId : OrderId) (side : Side) (limitPrice : Price)
    (quantity : Quantity) (output : List Fill)
  | submitMarket (locate : StockLocate) (side : Side) (quantity : Quantity) (output : List Fill)
  | clear

inductive CallResult where
  | applied (result : ApplyResult)
  | matched (result : MatchResult) (output : List Fill)
  | cleared

def EngineCall.onEngine (al : Alloc) : EngineCall → Engine CallResult
  | .apply event => do return .applied (← MatchingEngine.apply al event)
  | .submitLimit locate orderId side limitPrice quantity output => do
    let (result, output) ←
      MatchingEngine.submitLimit al locate orderId side limitPrice quantity output
    return .matched result output
  | .submitMarket locate side quantity output => do
    let (result, output) ← MatchingEngine.submitMarket locate side quantity output
    return .matched result output
  | .clear => do MatchingEngine.clear; return .cleared

def EngineCall.onReference (m : ReferenceEngine) : EngineCall → CallResult × ReferenceEngine
  | .apply event => (.applied (m.apply event).1, (m.apply event).2)
  | .submitLimit locate orderId side limitPrice quantity output =>
    let (reported, m') := m.submitLimit locate orderId side limitPrice quantity output
    (.matched reported.1 reported.2, m')
  | .submitMarket locate side quantity output =>
    let (reported, m') := m.submitMarket locate side quantity output
    (.matched reported.1 reported.2, m')
  | .clear => (.cleared, .new m.limits)

namespace MatchingEngine

variable {e : MatchingEngine} {m : ReferenceEngine}

theorem new_represents (limits : EngineLimits) : Represents (new limits) (.new limits) where
  limits := rfl
  missing _ _ := rfl
  book _ _ h := by cases h
  count := rfl

/-- **One call.** -/
theorem call_simulates (h : Represents e m) (place : Placement) (call : EngineCall) :
    ∃ e', (call.onEngine (.reliable place)).run e = .ok (call.onReference m).1 e' ∧
      Represents e' (call.onReference m).2 := by
  cases call with
  | apply event =>
    obtain ⟨e', run, hrep, _⟩ := apply_simulates h place event
    exact ⟨e', run_bind_ok run, hrep⟩
  | submitLimit locate orderId side limitPrice quantity output =>
    obtain ⟨e', run, hrep, _⟩ :=
      submitLimit_simulates h place locate orderId side limitPrice quantity output
    exact ⟨e', run_bind_ok run, hrep⟩
  | submitMarket locate side quantity output =>
    obtain ⟨e', run, hrep, _⟩ := submitMarket_simulates h locate side quantity output
    exact ⟨e', run_bind_ok run, hrep⟩
  | clear =>
    refine ⟨new e.limits, rfl, ?_⟩
    rw [h.limits]
    exact new_represents _

/-- The results of a run, each call with a placement of its own. -/
def runCalls : List (Placement × EngineCall) → Engine (List CallResult)
  | [] => return []
  | (place, call) :: calls => do
    let result ← call.onEngine (.reliable place)
    return result :: (← runCalls calls)

/-- The engines that runs reach. -/
def Reachable (limits : EngineLimits) (e : MatchingEngine) : Prop :=
  ∃ calls results, (runCalls calls).run (new limits) = .ok results e

end MatchingEngine

def ReferenceEngine.runCalls (m : ReferenceEngine) : List EngineCall →
    List CallResult × ReferenceEngine
  | [] => ([], m)
  | call :: calls =>
    let (results, m') := (call.onReference m).2.runCalls calls
    ((call.onReference m).1 :: results, m')

theorem EngineCall.bounded {limits : EngineLimits} {m : ReferenceEngine}
    (h : ReferenceEngine.Bounded limits m) (call : EngineCall) :
    ReferenceEngine.Bounded limits (call.onReference m).2 := by
  cases call with
  | apply event => exact h.apply event
  | submitLimit locate orderId side limitPrice quantity output => exact h.submitLimit _ _ _ _ _
  | submitMarket locate side quantity output => exact h.submitMarket _ _ _
  | clear =>
    show ReferenceEngine.Bounded limits (.new m.limits)
    rw [h.sameLimits]
    exact ReferenceEngine.new_bounded limits

namespace MatchingEngine

variable {limits : EngineLimits}

/-- **The rule for runs.** What each call keeps, of the results so far and of the engine and the
reference engine, is kept by a run of such calls. -/
theorem runCalls_keeps {P : List CallResult → MatchingEngine → ReferenceEngine → Prop}
    {p : EngineCall → Prop}
    (hstep : ∀ {before e m} place {call : EngineCall}, p call → P before e m →
      ∃ e', (call.onEngine (.reliable place)).run e = .ok (call.onReference m).1 e' ∧
        P (before ++ [(call.onReference m).1]) e' (call.onReference m).2)
    (calls : List (Placement × EngineCall)) (hcalls : ∀ call ∈ calls, p call.2) :
    ∀ before {e m}, P before e m → ∃ e',
      (runCalls calls).run e = .ok (m.runCalls (calls.map Prod.snd)).1 e' ∧
        P (before ++ (m.runCalls (calls.map Prod.snd)).1) e'
          (m.runCalls (calls.map Prod.snd)).2 := by
  induction calls with
  | nil =>
    intro before e m h
    refine ⟨e, rfl, ?_⟩
    show P (before ++ []) e m
    rw [List.append_nil]
    exact h
  | cons head calls ih =>
    obtain ⟨place, call⟩ := head
    intro before e m h
    obtain ⟨e₁, run₁, h₁⟩ := hstep place (hcalls _ List.mem_cons_self) h
    obtain ⟨e₂, run₂, h₂⟩ := ih (fun c hc => hcalls c (List.mem_cons_of_mem _ hc)) _ h₁
    refine ⟨e₂, ?_, ?_⟩
    · unfold runCalls
      rw [run_bind_ok run₁, run_bind_ok run₂]
      rfl
    · rw [List.append_assoc] at h₂
      exact h₂

/-- **A run of calls.** -/
theorem runCalls_simulates (calls : List (Placement × EngineCall)) {e : MatchingEngine}
    {m : ReferenceEngine} (h : Represents e m) (hb : ReferenceEngine.Bounded limits m) : ∃ e',
      (runCalls calls).run e = .ok (m.runCalls (calls.map Prod.snd)).1 e' ∧
        Represents e' (m.runCalls (calls.map Prod.snd)).2 ∧
        ReferenceEngine.Bounded limits (m.runCalls (calls.map Prod.snd)).2 := by
  refine runCalls_keeps (P := fun _ e m => Represents e m ∧ ReferenceEngine.Bounded limits m)
    (p := fun _ => True) (fun place call _ h => ?_) calls (fun _ _ => trivial) [] ⟨h, hb⟩
  obtain ⟨e', run, h'⟩ := call_simulates h.1 place call
  exact ⟨e', run, h', call.bounded h.2⟩

/-- A run from a fresh engine returns what the reference engine returns. -/
theorem runCalls_new (limits : EngineLimits) (calls : List (Placement × EngineCall)) :
    let reference := (ReferenceEngine.new limits).runCalls (calls.map Prod.snd)
    ∃ e, (runCalls calls).run (new limits) = .ok reference.1 e ∧ Represents e reference.2 ∧
      ReferenceEngine.Bounded limits reference.2 :=
  runCalls_simulates calls (new_represents limits) (ReferenceEngine.new_bounded limits)

/-- What a run reaches represents a reference engine within its limits. -/
theorem Reachable.represents (h : Reachable limits e) :
    ∃ m, Represents e m ∧ ReferenceEngine.Bounded limits m := by
  obtain ⟨calls, results, run⟩ := h
  obtain ⟨e', run', hrep, hb⟩ := runCalls_new limits calls
  rw [run] at run'
  cases run'
  exact ⟨_, hrep, hb⟩

/-- Every run of the reference engine is that of an engine. -/
theorem exists_reachable (limits : EngineLimits) (calls : List EngineCall) :
    ∃ e, Reachable limits e ∧ Represents e ((ReferenceEngine.new limits).runCalls calls).2 := by
  obtain ⟨e, run, hrep, _⟩ := runCalls_new limits (calls.map fun call => (.bump, call))
  rw [List.map_map] at run hrep
  rw [show Prod.snd ∘ (fun call : EngineCall => (Placement.bump, call)) = id from rfl,
    List.map_id] at hrep
  exact ⟨e, ⟨_, _, run⟩, hrep⟩

/-! ## Observations of an engine -/

/-- The ids at a price of a locate, oldest first. -/
def fifo (e : MatchingEngine) (locate : StockLocate) (side : Side) (price : Price) :
    List OrderId :=
  (e.findBook locate).elim [] fun book => book.fifo side price

def order (e : MatchingEngine) (locate : StockLocate) (id : OrderId) : Option OrderView :=
  (e.findBook locate).bind fun book => (book.order id).toOption.join

/-- The orders at a price of a locate, oldest first. -/
def views (e : MatchingEngine) (locate : StockLocate) (side : Side) (price : Price) :
    List OrderView :=
  (e.findBook locate).elim [] fun book => book.views side price

/-- The orders of a side within reach, best price first and oldest first at a price. -/
def queue (e : MatchingEngine) (locate : StockLocate) (side : Side) (reaches : Price → Bool) :
    List OrderView :=
  ((priceOrder side).filter reaches).flatMap (e.views locate side)

theorem Holds.observes (h : Holds e m) (locate : StockLocate) :
    (e.findBook locate = none ∧ m.book locate = .empty) ∨
      ∃ b, e.findBook locate = some b ∧ b.Observes (m.book locate) := by
  cases hm : m.books.lookup locate with
  | none => exact Or.inl ⟨h.findBook_none hm, ReferenceEngine.book_of_lookup_none hm⟩
  | some r =>
    obtain ⟨b, _, hfind, hrep, _⟩ := h.findBook_some hm
    rw [ReferenceEngine.book_of_lookup hm]
    exact Or.inr ⟨b, hfind, hrep.observes⟩

variable (h : Holds e m) (locate : StockLocate) (side : Side) (price : Price)
include h

theorem Holds.fifo_eq : e.fifo locate side price = (m.book locate).levels side price := by
  unfold fifo
  rcases h.observes locate with ⟨hfind, hbook⟩ | ⟨b, hfind, hb⟩
  · rw [hfind, hbook]; rfl
  · rw [hfind]
    exact hb.fifo side price

theorem Holds.order_eq (id : OrderId) : e.order locate id = (m.book locate).order id := by
  unfold order
  rcases h.observes locate with ⟨hfind, hbook⟩ | ⟨b, hfind, hb⟩
  · rw [hfind, hbook]; rfl
  · rw [hfind, Option.bind_some, hb.order]
    rfl

theorem Holds.views_eq : e.views locate side price = (m.book locate).views side price := by
  unfold views
  rcases h.observes locate with ⟨hfind, hbook⟩ | ⟨b, hfind, hb⟩
  · rw [hfind, hbook]; rfl
  · rw [hfind]
    exact hb.views_eq side price

theorem Holds.queue_eq (reaches : Price → Bool) :
    e.queue locate side reaches = (m.book locate).queue side reaches := by
  unfold queue ReferenceBook.queue
  exact List.flatMap_congr fun price _ => h.views_eq locate side price

theorem Holds.wf : (m.book locate).WF := by
  cases hm : m.books.lookup locate with
  | none =>
    rw [ReferenceEngine.book_of_lookup_none hm]
    exact ReferenceBook.WF.empty
  | some r =>
    obtain ⟨_, _, _, ⟨_, hlay, _, hag⟩, _⟩ := h.findBook_some hm
    rw [ReferenceEngine.book_of_lookup hm]
    exact hag.wf hlay

omit h

/-! ## Accounting -/

/-- The orders of a book, none where it is missing. -/
def ordersOf (book : Option OrderBook) : ℕ := (book.map OrderBook.orderCount).getD 0

theorem Holds.total_orders (h : Holds e m) : total ordersOf e.books = m.restingOrders := by
  refine total_congr fun locate => ?_
  cases hm : m.books.lookup locate with
  | none => rw [h.missing _ hm]; rfl
  | some r =>
    obtain ⟨b, hb, _, hrep, _⟩ := h.findBook_some hm
    rw [hb]
    exact congrArg some hrep.observes.orderCount

/-- **Accounting.** Every run returns, its counter is the number of orders in the books, and the caps
hold. -/
theorem runCalls_accounting (limits : EngineLimits) (calls : List (Placement × EngineCall)) :
    ∃ results e, (runCalls calls).run (new limits) = .ok results e ∧
      e.restingOrderCount.toNat = total ordersOf e.books ∧
      e.restingOrderCount ≤ limits.maxRestingOrders ∧
      e.instrumentCount ≤ limits.maxInstruments.toNat := by
  obtain ⟨e, run, h, hb⟩ := runCalls_new limits calls
  refine ⟨_, e, run, ?_, ?_, ?_⟩
  · rw [h.total_orders, h.count]
  · rw [BitVec.le_def, h.count]
    exact hb.restingOrders
  · rw [h.instrumentCount]
    exact hb.instruments

end MatchingEngine

end Lob
