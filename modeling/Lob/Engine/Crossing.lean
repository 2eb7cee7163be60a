import Lob.Book.Effects
import Lob.Engine.Locality

/-!
# Simulation never crosses a book

Reductions and sweeps only take orders away. A remainder rests when the sweep has emptied the opposite
side within its reach, so that it crosses nothing that is left.
-/

namespace Lob

open Basis ReferenceEngine

/-! ## The reference book -/

namespace ReferenceBook

variable {r r' r'' : ReferenceBook} {side : Side} {price : Price}

/-- Every bid is below every ask. -/
def Uncrossed (r : ReferenceBook) : Prop :=
  ∀ bid ask, r.levels .Buy bid ≠ [] → r.levels .Sell ask ≠ [] → bid < ask

/-- No level is new. -/
def Shrinks (r r' : ReferenceBook) : Prop :=
  ∀ side price, r.levels side price = [] → r'.levels side price = []

theorem Shrinks.refl (r : ReferenceBook) : Shrinks r r := fun _ _ h => h

theorem Shrinks.trans (h : Shrinks r r') (h' : Shrinks r' r'') : Shrinks r r'' :=
  fun side price hr => h' side price (h side price hr)

theorem Uncrossed.shrinks (h : r.Uncrossed) (hs : Shrinks r r') : r'.Uncrossed :=
  fun bid ask hbid hask => h bid ask (fun hr => hbid (hs _ _ hr)) fun hr => hask (hs _ _ hr)

theorem erase_shrinks (id : OrderId) : Shrinks r (r.erase id).2 := by
  unfold erase
  cases r.orders.lookup id with
  | none => exact Shrinks.refl r
  | some order =>
    intro side price hr
    show r.levels.set order.side order.price ((r.levels order.side order.price).erase id) side price
      = []
    by_cases e : side = order.side ∧ price = order.price
    · rw [e.1, e.2] at hr ⊢
      rw [Queues.set_self, hr]
      rfl
    · rw [Queues.set_of_ne e]
      exact hr

theorem cancel_shrinks (id : OrderId) (quantity : Quantity) :
    Shrinks r (r.cancel id quantity).2 := by
  cases hok : (r.cancel id quantity).1 with
  | false =>
    rw [cancel_refused hok]
    exact Shrinks.refl r
  | true =>
    obtain ⟨order, _, _, _, hr⟩ := cancel_accepted hok
    rw [hr]
    split_ifs
    · exact erase_shrinks id
    · exact fun _ _ h => h

theorem take_shrinks (taken : List (OrderView × ℕ)) : Shrinks r (r.take taken) := by
  unfold take
  induction taken generalizing r with
  | nil => exact Shrinks.refl r
  | cons x taken ih => exact (cancel_shrinks _ _).trans ih

/-- A new order that is beyond every order of the other side. -/
theorem Uncrossed.add (h : r.Uncrossed) (id : OrderId) (quantity : Quantity)
    (hbeyond : ∀ price', MatchingEngine.crosses side price price' = true →
      r.levels (opposite side) price' = []) :
    (r.add id side price quantity).2.Uncrossed := by
  cases hok : (r.add id side price quantity).1 with
  | false =>
    rw [add_refused hok]
    exact h
  | true =>
    rw [(add_accepted hok).2.2]
    intro bid ask hbid hask
    rw [pushBack_levels] at hbid hask
    have hold : ∀ {ids joined : List OrderId}, ids ++ joined ≠ [] → joined = [] → ids ≠ [] := by
      intro ids joined hne hjoined
      rwa [hjoined, List.append_nil] at hne
    cases side with
    | Buy =>
      have hask := hold hask (if_neg fun e => nomatch e.1)
      by_cases e : bid = price
      · by_contra hcross
        rw [e, BitVec.not_lt] at hcross
        exact hask (hbeyond ask (decide_eq_true hcross))
      · exact h bid ask (hold hbid (if_neg fun e' => e e'.2)) hask
    | Sell =>
      have hbid := hold hbid (if_neg fun e => nomatch e.1)
      by_cases e : ask = price
      · by_contra hcross
        rw [e, BitVec.not_lt] at hcross
        exact hbid (hbeyond bid (decide_eq_true hcross))
      · exact h bid ask hbid (hold hask (if_neg fun e' => e e'.2))

/-- An empty queue has no levels within reach. -/
theorem WF.levels_of_queue (h : r.WF) {reaches : Price → Bool} (hq : r.queue side reaches = [])
    (hp : reaches price = true) : r.levels side price = [] := by
  unfold queue at hq
  rw [List.flatMap_eq_nil_iff] at hq
  have hviews := hq price (List.mem_filter.mpr ⟨mem_priceOrder side price, hp⟩)
  cases hl : r.levels side price with
  | nil => rfl
  | cons id ids =>
    obtain ⟨v, _, _, hv⟩ := h.views_of_levels hl
    rw [hv] at hviews
    cases hviews

end ReferenceBook

/-! ## The reference engine -/

namespace ReferenceEngine

variable {m m' : ReferenceEngine} {locate locate' : StockLocate} {side : Side} {reaches : Price → Bool}
  {quantity : Quantity}

theorem swept_shrinks : ReferenceBook.Shrinks (m.book locate')
    ((m.swept locate side reaches quantity).book locate') := by
  rw [swept_book]
  split_ifs with e
  · rw [e]
    exact ReferenceBook.take_shrinks _
  · exact ReferenceBook.Shrinks.refl _

/-- A sweep with a remainder has emptied the other side within reach. -/
theorem swept_empty (hwf : (m.book locate).WF) {n : ℕ}
    (hrest : (matchResult quantity n (m.taken locate side reaches quantity)).resting ≠ 0)
    {price : Price} (hp : reaches price = true) :
    ((m.swept locate side reaches quantity).book locate).levels (opposite side) price = [] := by
  obtain ⟨hwf', hqueue, _⟩ := hwf.sweep (opposite side) reaches quantity.toNat
  have hmore : (((m.book locate).queue (opposite side) reaches).map OrderView.held).sum <
      quantity.toNat := by
    by_contra hle
    apply hrest
    show BitVec.ofNat 32 (quantity.toNat - ((m.taken locate side reaches quantity).map Prod.snd).sum)
      = 0
    unfold taken
    rw [sum_greedy, Nat.min_eq_left (Nat.not_lt.mp hle), Nat.sub_self]
    rfl
  rw [swept_book, if_pos rfl]
  refine hwf'.levels_of_queue ?_ hp
  rw [hqueue, leftover_eq_nil hmore]

/-- A submitted limit order: what rests of it crosses nothing, and no book gets crossed. -/
theorem submitLimit_uncrossed (hwf : (m.book locate).WF) (orderId : OrderId) (side : Side)
    (limitPrice : Price) (quantity : Quantity) (output : List Fill) :
    let out := m.submitLimit locate orderId side limitPrice quantity output
    (out.1.1.resting ≠ 0 → ∀ price, MatchingEngine.crosses side limitPrice price = true →
      (out.2.book locate).levels (opposite side) price = []) ∧
    ((m.book locate).Uncrossed → (out.2.book locate).Uncrossed) := by
  intro out
  have hcases := submitLimit_cases m locate orderId side limitPrice quantity output
  have hshrinks : ReferenceBook.Shrinks (m.book locate)
      ((m.swept locate side (reach true side limitPrice) quantity).book locate) := swept_shrinks
  change LimitOutcome m locate orderId side limitPrice _ _ out.1.1 out.2 at hcases
  obtain ⟨⟨result, output'⟩, m'⟩ := out
  simp only at hcases ⊢
  cases hcases with
  | refused => exact ⟨fun h => absurd rfl h, fun h => h⟩
  | filled h => exact ⟨fun hne => absurd h hne, fun hu => hu.shrinks hshrinks⟩
  | capped h hcan => exact ⟨fun hne => absurd rfl hne, fun hu => hu.shrinks hshrinks⟩
  | rests h hcan hok =>
    rw [setBook_book]
    refine ⟨fun _ price hp => ?_, fun hu => (hu.shrinks hshrinks).add _ _ fun price hp => ?_⟩
    · rw [(ReferenceBook.add_accepted hok).2.2, ReferenceBook.pushBack_levels,
        if_neg fun e => opposite_ne side e.1, List.append_nil]
      exact swept_empty hwf h hp
    · exact swept_empty hwf h hp

end ReferenceEngine

/-! ## The engine -/

/-- The calls that simulate, and the events that reduce or remove an order. -/
def EngineCall.Matches : EngineCall → Prop
  | .submitLimit _ _ _ _ _ _ => True
  | .submitMarket _ _ _ _ => True
  | .apply (.orderExecuted _) => True
  | .apply (.orderExecutedWithPrice _) => True
  | .apply (.orderCancel _) => True
  | .apply (.orderDelete _) => True
  | _ => False

namespace ReferenceEngine

theorem update_shrinks {m : ReferenceEngine} {locate : StockLocate} (action : ApplyAction)
    {operation : ReferenceBook → Bool × ReferenceBook}
    (hempty : operation .empty = (false, .empty))
    (hrefused : ∀ r, (operation r).1 = false → (operation r).2 = r)
    (hshrinks : ∀ r, ReferenceBook.Shrinks r (operation r).2) :
    ReferenceBook.Shrinks (m.book locate) ((m.update locate action operation).2.book locate) := by
  rw [(update_eq m locate action hempty hrefused).2]
  exact hshrinks _

/-- **One call** crosses no book. -/
theorem call_uncrossed {m : ReferenceEngine} (hwf : ∀ locate, (m.book locate).WF)
    {call : EngineCall} (hcall : call.Matches) (locate : StockLocate)
    (h : (m.book locate).Uncrossed) : ((call.onReference m).2.book locate).Uncrossed := by
  obtain ⟨own, hown⟩ : ∃ own, call.locate = some own := by
    cases call with
    | clear => exact absurd hcall id
    | _ => exact ⟨_, rfl⟩
  by_cases hne : locate = own
  swap
  · rw [(call_elsewhere hown).book hne]
    exact h
  subst hne
  cases call with
  | submitLimit locate orderId side limitPrice quantity output =>
    cases hown
    exact (submitLimit_uncrossed (hwf locate) orderId side limitPrice quantity output).2 h
  | submitMarket locate side quantity output =>
    cases hown
    show ((m.submitMarket locate side quantity output).2.book locate).Uncrossed
    unfold submitMarket
    split_ifs
    · exact h
    · exact h.shrinks swept_shrinks
  | clear => exact absurd hcall id
  | apply event =>
    cases hown
    cases event with
    | orderExecuted message =>
      exact h.shrinks (update_shrinks _ rfl (fun r => ReferenceBook.cancel_refused)
        fun r => ReferenceBook.cancel_shrinks _ _)
    | orderExecutedWithPrice message =>
      exact h.shrinks (update_shrinks _ rfl (fun r => ReferenceBook.cancel_refused)
        fun r => ReferenceBook.cancel_shrinks _ _)
    | orderCancel message =>
      exact h.shrinks (update_shrinks _ rfl (fun r => ReferenceBook.cancel_refused)
        fun r => ReferenceBook.cancel_shrinks _ _)
    | orderDelete message =>
      exact h.shrinks (update_shrinks _ rfl (fun r => ReferenceBook.erase_refused)
        fun r => ReferenceBook.erase_shrinks _)
    | _ => exact absurd hcall id

end ReferenceEngine

namespace MatchingEngine

variable {limits : EngineLimits} {e e' : MatchingEngine} {m : ReferenceEngine} {locate : StockLocate}

/-- A side of the book is empty, or the best bid is below the best ask. -/
def Uncrossed (e : MatchingEngine) (locate : StockLocate) : Prop :=
  ∀ b, e.findBook locate = some b →
    ∀ bid ask, b.bestBid = .ok (some bid) → b.bestAsk = .ok (some ask) → bid < ask

theorem Holds.uncrossed_iff (h : Holds e m) :
    e.Uncrossed locate ↔ (m.book locate).Uncrossed := by
  unfold Uncrossed
  rcases h.observes locate with ⟨hfind, hbook⟩ | ⟨b, hfind, hb⟩
  · rw [hfind, hbook]
    exact iff_of_true nofun fun _ _ hbid => absurd rfl hbid
  rw [hfind]
  obtain ⟨bestBid, hbestBid, hisBid, _⟩ := hb.bestBid
  obtain ⟨bestAsk, hbestAsk, hisAsk, _⟩ := hb.bestAsk
  constructor
  · intro hu bid ask hbid hask
    cases bestBid with
    | none => exact absurd (hisBid.none_levels bid) hbid
    | some best =>
      cases bestAsk with
      | none => exact absurd (hisAsk.none_levels ask) hask
      | some best' =>
        have hle : bid ≤ best := (show IsGreatest _ best from hisBid).2 hbid
        have hle' : best' ≤ ask := (show IsLeast _ best' from hisAsk).2 hask
        have hlt := hu b rfl best best' hbestBid hbestAsk
        bv_omega
  · rintro hu b' hb' bid ask hbid hask
    cases hb'
    rw [hbestBid] at hbid
    rw [hbestAsk] at hask
    cases hbid
    cases hask
    exact hu bid ask hisBid.levels_ne hisAsk.levels_ne

/-- The run of these calls. -/
theorem runCalls_uncrossed (calls : List (Placement × EngineCall))
    (hcalls : ∀ call ∈ calls, call.2.Matches) (h : Represents e m)
    (hu : ∀ locate, (m.book locate).Uncrossed) {results : List CallResult}
    (run : (runCalls calls).run e = .ok results e') (locate : StockLocate) :
    e'.Uncrossed locate := by
  obtain ⟨e₁, run₁, h₁, hu₁⟩ := runCalls_keeps
    (P := fun _ e m => Represents e m ∧ ∀ locate, (m.book locate).Uncrossed)
    (fun place call hcall h => by
      obtain ⟨e', run, h'⟩ := call_simulates h.1 place call
      exact ⟨e', run, h', fun locate =>
        call_uncrossed h.1.toHolds.wf hcall locate (h.2 locate)⟩) calls hcalls [] ⟨h, hu⟩
  rw [run] at run₁
  cases run₁
  exact h₁.toHolds.uncrossed_iff.mpr (hu₁ locate)

/-- **Simulation never crosses a book.** In every reachable engine a submitted order, or an `E`, `C`,
`X` or `D` event, crosses no book that was not crossed, and what rests of a limit order leaves no
opposite order within its reach; so a run of such calls alone crosses no book. -/
theorem submits_never_cross (limits : EngineLimits) (calls : List (Placement × EngineCall)) :
    ∃ results e, (runCalls calls).run (new limits) = .ok results e ∧
      (∀ place (call : EngineCall), call.Matches → ∃ result e',
        (call.onEngine (.reliable place)).run e = .ok result e' ∧
          ∀ locate, e.Uncrossed locate → e'.Uncrossed locate) ∧
      (∀ place locate orderId side limitPrice quantity output, ∃ result output' e',
        (submitLimit (.reliable place) locate orderId side limitPrice quantity output).run e =
          .ok (result, output') e' ∧
        (result.resting ≠ 0 → ∀ price, crosses side limitPrice price = true →
          e'.fifo locate (opposite side) price = [])) ∧
      ((∀ call ∈ calls, call.2.Matches) → ∀ locate, e.Uncrossed locate) := by
  obtain ⟨e, run, h, _⟩ := runCalls_new limits calls
  refine ⟨_, e, run, fun place call hcall => ?_,
    fun place locate orderId side limitPrice quantity output => ?_, fun hcalls =>
    runCalls_uncrossed calls hcalls (new_represents limits) (fun _ _ _ hbid => absurd rfl hbid) run⟩
  · obtain ⟨e', run', h'⟩ := call_simulates h place call
    refine ⟨_, e', run', fun locate hu => ?_⟩
    rw [h'.toHolds.uncrossed_iff]
    exact call_uncrossed h.toHolds.wf hcall locate (h.toHolds.uncrossed_iff.mp hu)
  · obtain ⟨e', run', h', _⟩ :=
      submitLimit_simulates h place locate orderId side limitPrice quantity output
    refine ⟨_, _, e', run', fun hrest price hp => ?_⟩
    rw [h'.fifo_eq]
    exact (submitLimit_uncrossed (h.toHolds.wf locate) orderId side limitPrice quantity output).1
      hrest price hp

/-- A bid and an ask above it. -/
theorem submits_never_cross_two : ∃ results e,
    (runCalls [(.bump, .submitLimit 1 7 .Buy 100 5 []), (.bump, .submitLimit 1 8 .Sell 101 5 [])]).run
      (new {}) = .ok results e ∧ e.Uncrossed 1 := by
  obtain ⟨results, e, run, _, _, hrun⟩ := submits_never_cross {}
    [(.bump, .submitLimit 1 7 .Buy 100 5 []), (.bump, .submitLimit 1 8 .Sell 101 5 [])]
  exact ⟨results, e, run, hrun (by simp [EngineCall.Matches]) 1⟩

end MatchingEngine

end Lob
