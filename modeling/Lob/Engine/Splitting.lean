import Lob.Book.Parts
import Lob.Engine.Matching

/-!
# Splitting an aggressive order

Two market orders one after the other do to an engine what one market order for both quantities does,
wherever the first of them ends: inside a resting order, between two, between two prices or past the
last. The engines are equal, not only the books that they represent.
-/

namespace Lob

open Basis ReferenceEngine

namespace MatchingEngine

variable {limits : EngineLimits} {e e' : MatchingEngine} {m : ReferenceEngine} {locate : StockLocate}
  {side : Side} {limitPrice : Price} {hasLimit : Bool} {r : ReferenceBook}
  {remaining q₁ q₂ : Quantity}

/-! ## Where the loop ends -/

/-- What a round takes, of all that remains and all there is. -/
theorem toNat_fill (remaining : Quantity) (v : OrderView) :
    (if remaining < v.quantity then remaining else v.quantity).toNat =
      min remaining.toNat v.quantity.toNat := by
  rw [fillQuantity_eq, ReferenceBook.toNat_ofNat_min]
  rfl

/-- What a round leaves of the book and of the remaining quantity. -/
theorem round_leaves (hwf : r.WF) {v : OrderView} {Q : List OrderView} {reaches : Price → Bool}
    (hQ : r.queue (opposite side) reaches = v :: Q) (hzero : remaining ≠ 0) :
    let k := if remaining < v.quantity then remaining else v.quantity
    (r.execute v.orderId k).2.WF ∧
      ((r.execute v.orderId k).2.queue (opposite side) reaches =
        if k = v.quantity then Q else { v with quantity := v.quantity - k } :: Q) ∧
      (remaining - k).toNat < remaining.toNat := by
  intro k
  have hn : remaining.toNat ≠ 0 := fun hn => hzero (BitVec.eq_of_toNat_eq hn)
  obtain ⟨_, ht, _⟩ := hwf.sweep_step hQ hn
  obtain ⟨_, _, hpos, _, hqueue⟩ := hwf.execute_head hQ
  rw [← fillQuantity_eq] at ht
  have hk : k.toNat = min remaining.toNat v.held := toNat_fill remaining v
  refine ⟨ht.wf, hqueue _ _ ht, ?_⟩
  rw [BitVec.toNat_sub_of_le (by rw [BitVec.le_def]; omega)]
  omega

/-- The loop of `match` takes the engine from `e` to `e'`, whatever it reports to. -/
def MatchesTo (locate : StockLocate) (side : Side) (limitPrice : Price) (hasLimit : Bool)
    (e : MatchingEngine) (remaining : Quantity) (e' : MatchingEngine) : Prop :=
  ∀ fuel result output, remaining.toNat ≤ fuel → ∃ reported,
    (matchLoop locate side limitPrice hasLimit fuel remaining result output).run e = .ok reported e'

theorem MatchesTo.stop (h : Represents e m) (hm : m.books.lookup locate = some r) (hwf : r.WF)
    (hstop : remaining = 0 ∨ r.queue (opposite side) (reach hasLimit side limitPrice) = []) :
    MatchesTo locate side limitPrice hasLimit e remaining e :=
  fun _ _ _ hfuel => ⟨_, matchLoop_stop h hm hwf hfuel hstop _ _⟩

/-- A round and the rounds after it. -/
theorem MatchesTo.round (h : Represents e m) (hm : m.books.lookup locate = some r) (hwf : r.WF)
    {v : OrderView} {Q : List OrderView}
    (hQ : r.queue (opposite side) (reach hasLimit side limitPrice) = v :: Q)
    (hzero : remaining ≠ 0) :
    let k := if remaining < v.quantity then remaining else v.quantity
    ∃ e₁, (onBook locate (OrderBook.execute v.orderId k)).run e = .ok true e₁ ∧
      let e₂ : MatchingEngine := if k = v.quantity then
        { e₁ with restingOrderCount := e₁.restingOrderCount - 1 } else e₁
      Represents e₂ (m.setBook locate (r.execute v.orderId k).2) ∧
      ∀ e', MatchesTo locate side limitPrice hasLimit e₂ (remaining - k) e' →
        MatchesTo locate side limitPrice hasLimit e remaining e' := by
  intro k
  obtain ⟨e₁, run₁, h₂, _, hround⟩ := matchLoop_round h hm hwf hQ hzero
  refine ⟨e₁, run₁, h₂, fun e' hrest fuel result output hfuel => ?_⟩
  obtain ⟨_, _, hless⟩ := round_leaves hwf hQ hzero
  obtain ⟨fuel, rfl⟩ : ∃ n, fuel = n + 1 := ⟨fuel - 1, by omega⟩
  rw [hround]
  exact hrest fuel _ _ (Nat.le_of_lt_succ (lt_of_lt_of_le hless hfuel))

theorem exists_matchesTo (h : Represents e m) (hm : m.books.lookup locate = some r) (hwf : r.WF)
    (remaining : Quantity) :
    ∃ e', MatchesTo locate side limitPrice hasLimit e remaining e' := by
  induction hn : remaining.toNat using Nat.strong_induction_on generalizing e m r remaining with
  | _ n ih =>
    by_cases hzero : remaining = 0
    · exact ⟨e, .stop h hm hwf (Or.inl hzero)⟩
    cases hQ : r.queue (opposite side) (reach hasLimit side limitPrice) with
    | nil => exact ⟨e, .stop h hm hwf (Or.inr hQ)⟩
    | cons v Q =>
      obtain ⟨_, _, h₂, hround⟩ := MatchesTo.round h hm hwf hQ hzero
      obtain ⟨hwf₂, _, hless⟩ := round_leaves hwf hQ hzero
      obtain ⟨e', hrest⟩ := ih _ (hn ▸ hless) h₂ (by rw [setBook_lookup, if_pos rfl]) hwf₂ _ rfl
      exact ⟨e', hround e' hrest⟩

/-- Two executions of one order, the first of them of a part. -/
theorem onBook_parts (h : Represents e m) (hm : m.books.lookup locate = some r) {id : OrderId}
    {ref : ReferenceOrder} (hr : r.orders.lookup id = some ref) {k₁ k₂ : Quantity} (hpos₁ : k₁ ≠ 0)
    (hpos₂ : k₂ ≠ 0) (hsum : k₁.toNat + k₂.toNat ≤ ref.quantity.toNat) :
    ∃ e₁ e₂, (onBook locate (OrderBook.execute id k₁)).run e = .ok true e₁ ∧
      (onBook locate (OrderBook.execute id k₂)).run e₁ = .ok true e₂ ∧
      (onBook locate (OrderBook.execute id (k₁ + k₂))).run e = .ok true e₂ := by
  obtain ⟨b, _, hfind, hrep, _⟩ := h.findBook_some hm
  obtain ⟨b₁, b₂, run₁, run₂, run⟩ := OrderBook.execute_parts hrep hr hpos₁ hpos₂ hsum
  have hfind₁ : findBook { e with books := e.books.insert locate (some b₁) } locate = some b₁ := by
    unfold findBook
    rw [Finmap.lookup_insert]
    rfl
  refine ⟨_, _, focus_ok (by rw [hfind]; rfl) run₁, focus_ok (by rw [hfind₁]; rfl) run₂, ?_⟩
  rw [Finmap.insert_insert]
  exact focus_ok (by rw [hfind]; rfl) run

theorem toNat_add_quantity (hsum : q₁.toNat + q₂.toNat < 2 ^ 32) :
    (q₁ + q₂).toNat = q₁.toNat + q₂.toNat := by
  rw [BitVec.toNat_add, Nat.mod_eq_of_lt hsum]

/-- One round takes what two rounds take of an order that the first one leaves a part of. -/
theorem fill_add {v : OrderView} (hpart : q₁ < v.quantity) (hpos₂ : q₂ ≠ 0)
    (hsum : q₁.toNat + q₂.toNat < 2 ^ 32) :
    let k₂ := if q₂ < v.quantity - q₁ then q₂ else v.quantity - q₁
    (if q₁ + q₂ < v.quantity then q₁ + q₂ else v.quantity) = q₁ + k₂ ∧
      q₁.toNat + k₂.toNat ≤ v.quantity.toNat ∧ k₂ ≠ 0 := by
  intro k₂
  have hlt : q₁.toNat < v.quantity.toNat := hpart
  have hsome : q₂.toNat ≠ 0 := fun hzero => hpos₂ (BitVec.eq_of_toNat_eq hzero)
  have hk₂ : k₂.toNat = min q₂.toNat (v.quantity.toNat - q₁.toNat) := by
    rw [← BitVec.toNat_sub_of_le (BitVec.le_of_lt hpart)]
    exact toNat_fill q₂ { v with quantity := v.quantity - q₁ }
  refine ⟨BitVec.eq_of_toNat_eq ?_, by omega, fun hzero => ?_⟩
  · rw [toNat_fill, toNat_add_quantity hsum, toNat_add_quantity (by omega), hk₂]
    omega
  · rw [hzero] at hk₂
    change 0 = _ at hk₂
    omega

/-- The loops part inside an order: the second one goes on with what the first one left of it. -/
theorem matchesTo_part (h : Represents e m) (hm : m.books.lookup locate = some r) (hwf : r.WF)
    {v : OrderView} {Q : List OrderView}
    (hQ : r.queue (opposite side) (reach hasLimit side limitPrice) = v :: Q) (hpos₁ : q₁ ≠ 0)
    (hpos₂ : q₂ ≠ 0) (hsum : q₁.toNat + q₂.toNat < 2 ^ 32) (hpart : q₁ < v.quantity) :
    ∃ e₁ e₂, MatchesTo locate side limitPrice hasLimit e q₁ e₁ ∧
      MatchesTo locate side limitPrice hasLimit e₁ q₂ e₂ ∧
      MatchesTo locate side limitPrice hasLimit e (q₁ + q₂) e₂ := by
  have hfound (m : ReferenceEngine) (r : ReferenceBook) :
      (m.setBook locate r).books.lookup locate = some r := by
    rw [setBook_lookup, if_pos rfl]
  obtain ⟨_, _, _, hlook, _⟩ := hwf.execute_head hQ
  -- The only round of the first loop, the round after it, and the round that does both.
  obtain ⟨e₁, run₁, h₁, hround₁⟩ := MatchesTo.round h hm hwf hQ hpos₁
  obtain ⟨hwf₁, hQ₁, _⟩ := round_leaves hwf hQ hpos₁
  have hless : q₁ ≠ v.quantity := by rintro rfl; exact BitVec.lt_irrefl _ hpart
  rw [if_pos hpart] at run₁ hwf₁ hQ₁
  rw [if_pos hpart, if_neg hless] at h₁ hround₁
  rw [if_neg hless] at hQ₁
  obtain ⟨e₂, run₂, h₂, hround₂⟩ := MatchesTo.round h₁ (hfound _ _) hwf₁ hQ₁ hpos₂
  obtain ⟨hwf₂, _, _⟩ := round_leaves hwf₁ hQ₁ hpos₂
  obtain ⟨e₃, run₃, _, hround₃⟩ :=
    MatchesTo.round h hm hwf hQ (show q₁ + q₂ ≠ 0 by bv_omega)
  obtain ⟨hboth, hle, hsome⟩ := fill_add hpart hpos₂ hsum
  simp only at run₂ h₂ hround₂ hwf₂
  set k₂ := if q₂ < v.quantity - q₁ then q₂ else v.quantity - q₁
  have hfull : q₁ + k₂ = v.quantity ↔ k₂ = v.quantity - q₁ := eq_sub_iff_add_eq'.symm
  -- Rounds run deterministically, so that the engines are those of the executions in parts.
  obtain ⟨x₁, x₂, hrun₁, hrun₂, hrun⟩ := onBook_parts h hm hlook hpos₁ hsome hle
  rw [run₁] at hrun₁
  cases hrun₁
  rw [run₂] at hrun₂
  cases hrun₂
  rw [hboth] at run₃ hround₃
  rw [hrun] at run₃
  cases run₃
  simp only [hfull, add_sub_add_left_eq_sub] at hround₃
  obtain ⟨e', hend⟩ := exists_matchesTo h₂ (hfound _ _) hwf₂ (q₂ - k₂)
  refine ⟨e₁, e', hround₁ e₁ (.stop h₁ (hfound _ _) hwf₁ (Or.inl (BitVec.sub_self q₁))),
    hround₂ e' hend, hround₃ e' hend⟩

/-- **The loop in two parts** ends where the loop for the sum ends. -/
theorem matchesTo_add (h : Represents e m) (hm : m.books.lookup locate = some r) (hwf : r.WF)
    (hpos : q₂ ≠ 0) (hsum : q₁.toNat + q₂.toNat < 2 ^ 32) :
    ∃ e₁ e₂, MatchesTo locate side limitPrice hasLimit e q₁ e₁ ∧
      MatchesTo locate side limitPrice hasLimit e₁ q₂ e₂ ∧
      MatchesTo locate side limitPrice hasLimit e (q₁ + q₂) e₂ := by
  induction hn : q₁.toNat using Nat.strong_induction_on generalizing e m r q₁ with
  | _ n ih =>
    by_cases hzero : q₁ = 0
    · obtain ⟨e', hall⟩ := exists_matchesTo h hm hwf q₂
      refine ⟨e, e', .stop h hm hwf (Or.inl hzero), hall, ?_⟩
      rw [hzero, zero_add]
      exact hall
    cases hQ : r.queue (opposite side) (reach hasLimit side limitPrice) with
    | nil =>
      exact ⟨e, e, .stop h hm hwf (Or.inr hQ), .stop h hm hwf (Or.inr hQ), .stop h hm hwf (Or.inr hQ)⟩
    | cons v Q =>
      by_cases hpart : q₁ < v.quantity
      · exact matchesTo_part h hm hwf hQ hzero hpos hsum hpart
      -- Both take the order in full.
      have hwhole : ¬q₁ + q₂ < v.quantity := by bv_omega
      obtain ⟨e₁, run₁, h₁, hround₁⟩ := MatchesTo.round h hm hwf hQ hzero
      obtain ⟨hwf₁, _, hless⟩ := round_leaves hwf hQ hzero
      obtain ⟨e₃, run₃, _, hround₃⟩ :=
        MatchesTo.round h hm hwf hQ (show q₁ + q₂ ≠ 0 by bv_omega)
      rw [if_neg hpart] at run₁ hwf₁ hless
      rw [if_neg hpart, if_pos rfl] at h₁ hround₁
      rw [if_neg hwhole] at run₃
      rw [if_neg hwhole, if_pos rfl] at hround₃
      rw [run₁] at run₃
      cases run₃
      obtain ⟨e₁', e₂, hfirst, hsecond, hboth⟩ := ih _ (hn ▸ hless) h₁
        (by rw [setBook_lookup, if_pos rfl]) hwf₁ (by omega) rfl
      refine ⟨e₁', e₂, hround₁ e₁' hfirst, hsecond, hround₃ e₂ ?_⟩
      rw [add_sub_right_comm]
      exact hboth

/-! ## Market orders -/

theorem submitMarket_missing (hfind : e.findBook locate = none) (side : Side) (quantity : Quantity)
    (output : List Fill) :
    ∃ reported, (submitMarket locate side quantity output).run e = .ok reported e := by
  unfold submitMarket
  split_ifs
  · exact ⟨_, rfl⟩
  · have run : (matchOrder locate side 0 quantity false output).run e =
        .ok ({ resting := quantity }, output) e := by
      unfold matchOrder
      rw [run_get_bind, hfind]
      rfl
    rw [run_bind_ok run]
    exact ⟨_, rfl⟩

theorem MatchesTo.submitMarket {quantity : Quantity}
    (h : MatchesTo locate side 0 false e quantity e') (hfind : (e.findBook locate).isSome)
    (hpos : quantity ≠ 0) (output : List Fill) :
    ∃ reported, (submitMarket locate side quantity output).run e = .ok reported e' := by
  obtain ⟨b, hb⟩ := Option.isSome_iff_exists.mp hfind
  obtain ⟨reported, run⟩ := h quantity.toNat {} output le_rfl
  have run' : (matchOrder locate side 0 quantity false output).run e = .ok reported e' := by
    unfold matchOrder
    rw [run_get_bind, hb]
    exact run
  unfold MatchingEngine.submitMarket
  rw [if_neg hpos, run_bind_ok run']
  exact ⟨_, rfl⟩

/-- What a market order has reported and left. -/
theorem submitMarket_swept (h : Represents e m) {quantity : Quantity} (hpos : quantity ≠ 0)
    {output : List Fill} {reported : MatchResult × List Fill}
    (run : (submitMarket locate side quantity output).run e = .ok reported e') :
    reported = (m.submitMarket locate side quantity output).1 ∧
      Represents e' (m.swept locate side (reach false side 0) quantity) := by
  obtain ⟨e₁, run₁, h₁, _⟩ := submitMarket_simulates h locate side quantity output
  rw [run] at run₁
  cases run₁
  refine ⟨rfl, ?_⟩
  unfold ReferenceEngine.submitMarket at h₁
  rw [if_neg hpos] at h₁
  exact h₁

/-- Two market orders leave the engine that one leaves. -/
theorem submitMarket_add (h : Represents e m) (locate : StockLocate) (side : Side)
    (hpos₁ : q₁ ≠ 0) (hpos₂ : q₂ ≠ 0) (hsum : q₁.toNat + q₂.toNat < 2 ^ 32)
    (output₁ output₂ output : List Fill) :
    ∃ reported₁ reported₂ reported e₁ e₂,
      (submitMarket locate side q₁ output₁).run e = .ok reported₁ e₁ ∧
      (submitMarket locate side q₂ output₂).run e₁ = .ok reported₂ e₂ ∧
      (submitMarket locate side (q₁ + q₂) output).run e = .ok reported e₂ := by
  have hpos : q₁ + q₂ ≠ 0 := by bv_omega
  cases hm : m.books.lookup locate with
  | none =>
    have hfind := h.findBook_none hm
    obtain ⟨reported₁, run₁⟩ := submitMarket_missing hfind side q₁ output₁
    obtain ⟨reported₂, run₂⟩ := submitMarket_missing hfind side q₂ output₂
    obtain ⟨reported, run⟩ := submitMarket_missing hfind side (q₁ + q₂) output
    exact ⟨reported₁, reported₂, reported, e, e, run₁, run₂, run⟩
  | some r =>
    obtain ⟨b, _, hfind, hrep, _⟩ := h.findBook_some hm
    have hfound : (e.findBook locate).isSome := by rw [hfind]; rfl
    have hwf : r.WF := ReferenceEngine.book_of_lookup hm ▸ h.wf locate
    have hends : ∃ e₁ e₂, MatchesTo locate side 0 false e q₁ e₁ ∧
        MatchesTo locate side 0 false e₁ q₂ e₂ ∧ MatchesTo locate side 0 false e (q₁ + q₂) e₂ :=
      matchesTo_add h hm hwf hpos₂ hsum
    obtain ⟨e₁, e₂, hfirst, hsecond, hboth⟩ := hends
    obtain ⟨reported₁, run₁⟩ := hfirst.submitMarket hfound hpos₁ output₁
    have hfound₁ : (e₁.findBook locate).isSome := by
      rw [(submitMarket_swept h hpos₁ run₁).2.isSome_findBook, swept_isSome, hm]
      rfl
    obtain ⟨reported₂, run₂⟩ := hsecond.submitMarket hfound₁ hpos₂ output₂
    obtain ⟨reported, run⟩ := hboth.submitMarket hfound hpos output
    exact ⟨reported₁, reported₂, reported, e₁, e₂, run₁, run₂, run⟩

/-! ## Reports -/

/-- The fills that a call has written. -/
def fillsOf (reported : MatchResult × List Fill) : List Fill :=
  reported.2.take reported.1.fillCount

/-- Two fills of one resting order as one. -/
def mergeFills (fill next : Fill) : Fill := { fill with quantity := fill.quantity + next.quantity }

/-- The fills of two calls one after the other. The last one of the first call and the first one of the
second are merged where they name the same resting order. -/
def joinFills : List Fill → List Fill → List Fill :=
  joinSeam (fun fill next => fill.restingOrder = next.restingOrder) mergeFills

/-- What two calls report, beside what one reports. -/
structure AddsUp (reported₁ reported₂ reported : MatchResult × List Fill) : Prop where
  filled : reported.1.filled.toNat = reported₁.1.filled.toNat + reported₂.1.filled.toNat
  unfilled : reported.1.unfilled.toNat = reported₁.1.unfilled.toNat + reported₂.1.unfilled.toNat
  fills : reported₁.1.fillCount ≤ reported₁.2.length → reported₂.1.fillCount ≤ reported₂.2.length →
    reported.1.fillCount ≤ reported.2.length →
    fillsOf reported = joinFills (fillsOf reported₁) (fillsOf reported₂)

/-- The report of a market order that took `taken`. -/
structure MarketReport (quantity : Quantity) (taken : List (OrderView × ℕ))
    (reported : MatchResult × List Fill) : Prop where
  filled : reported.1.filled.toNat = (taken.map Prod.snd).sum
  unfilled : reported.1.unfilled.toNat = quantity.toNat - (taken.map Prod.snd).sum
  fills : reported.1.fillCount ≤ reported.2.length → fillsOf reported = taken.map toFill

theorem take_writeFills {taken : List (OrderView × ℕ)} {output : List Fill}
    (h : taken.length ≤ output.length) :
    (writeFills taken output).take taken.length = taken.map toFill := by
  have hmap : (taken.map toFill).length = taken.length := List.length_map _
  have hall : (taken.map toFill).take output.length = taken.map toFill :=
    List.take_of_length_le (by omega)
  unfold writeFills
  rw [hall]
  exact List.take_left' hmap

theorem submitMarket_reports (h : Represents e m) {quantity : Quantity} (hpos : quantity ≠ 0)
    {output : List Fill} {reported : MatchResult × List Fill}
    (run : (submitMarket locate side quantity output).run e = .ok reported e') :
    MarketReport quantity (m.taken locate side (reach false side 0) quantity) reported ∧
      Represents e' (m.swept locate side (reach false side 0) quantity) := by
  obtain ⟨rfl, h'⟩ := submitMarket_swept h hpos run
  unfold ReferenceEngine.submitMarket
  rw [if_neg hpos]
  refine ⟨⟨toNat_ofNat_of_le sum_taken_le, toNat_ofNat_of_le (Nat.sub_le _ _), fun hcount => ?_⟩, h'⟩
  change _ ≤ (writeFills _ _).length at hcount
  rw [length_writeFills] at hcount
  exact take_writeFills hcount

/-- What is taken in two parts. -/
theorem taken_add (hwf : (m.book locate).WF) (side : Side) (reaches : Price → Bool)
    (hsum : q₁.toNat + q₂.toNat < 2 ^ 32) : m.taken locate side reaches (q₁ + q₂) =
      joinSeam (sameItem OrderView.orderId) mergeTaken (m.taken locate side reaches q₁)
        ((m.swept locate side reaches q₁).taken locate side reaches q₂) := by
  obtain ⟨_, hqueue, _⟩ := hwf.sweep (opposite side) reaches q₁.toNat
  have hkey (v : OrderView) (n : ℕ) : (v.shrink n).orderId = v.orderId := rfl
  have hheld (v : OrderView) (n : ℕ) (hn : n < v.held) : (v.shrink n).held = v.held - n := by
    unfold OrderView.shrink OrderView.held at *
    bv_omega
  unfold ReferenceEngine.taken
  rw [swept_book, if_pos rfl, toNat_add_quantity hsum,
    greedy_add hkey hheld _ _ (hwf.queue_nodup _ _)]
  unfold ReferenceEngine.taken
  rw [hqueue]

/-- **Reports add up.** -/
theorem MarketReport.addsUp {taken₁ taken₂ : List (OrderView × ℕ)}
    {reported₁ reported₂ reported : MatchResult × List Fill}
    (h₁ : MarketReport q₁ taken₁ reported₁) (h₂ : MarketReport q₂ taken₂ reported₂)
    (h : MarketReport (q₁ + q₂) (joinSeam (sameItem OrderView.orderId) mergeTaken taken₁ taken₂)
      reported)
    (hle₁ : (taken₁.map Prod.snd).sum ≤ q₁.toNat) (hle₂ : (taken₂.map Prod.snd).sum ≤ q₂.toNat)
    (hsum : q₁.toNat + q₂.toNat < 2 ^ 32) : AddsUp reported₁ reported₂ reported := by
  have htaken : ((joinSeam (sameItem OrderView.orderId) mergeTaken taken₁ taken₂).map Prod.snd).sum =
      (taken₁.map Prod.snd).sum + (taken₂.map Prod.snd).sum := sum_joinSeam (fun _ _ => rfl) _ _
  refine ⟨?_, ?_, fun hfits₁ hfits₂ hfits => ?_⟩
  · rw [h.filled, h₁.filled, h₂.filled, htaken]
  · rw [h.unfilled, h₁.unfilled, h₂.unfilled, htaken, toNat_add_quantity hsum]
    omega
  · rw [h.fills hfits, h₁.fills hfits₁, h₂.fills hfits₂]
    have hmerge (x y : OrderView × ℕ) :
        toFill (mergeTaken x y) = mergeFills (toFill x) (toFill y) := by
      unfold toFill mergeFills mergeTaken
      rw [BitVec.ofNat_add]
    have hsame (x y : OrderView × ℕ) :
        decide ((toFill x).restingOrder = (toFill y).restingOrder) =
          sameItem OrderView.orderId x y := rfl
    exact map_joinSeam toFill hsame hmerge taken₁ taken₂

/-- **Splitting an aggressive order does not change the outcome**: two market orders leave the engine
that one for both quantities leaves, and what they report adds up. -/
theorem submitMarket_split (h : Reachable limits e) (locate : StockLocate) (side : Side)
    (hpos₁ : q₁ ≠ 0) (hpos₂ : q₂ ≠ 0) (hsum : q₁.toNat + q₂.toNat < 2 ^ 32)
    (output₁ output₂ output : List Fill) :
    ∃ reported₁ reported₂ reported e₁ e₂,
      (submitMarket locate side q₁ output₁).run e = .ok reported₁ e₁ ∧
      (submitMarket locate side q₂ output₂).run e₁ = .ok reported₂ e₂ ∧
      (submitMarket locate side (q₁ + q₂) output).run e = .ok reported e₂ ∧
      AddsUp reported₁ reported₂ reported := by
  obtain ⟨m, h, _⟩ := h.represents
  obtain ⟨reported₁, reported₂, reported, e₁, e₂, run₁, run₂, run⟩ :=
    submitMarket_add h locate side hpos₁ hpos₂ hsum output₁ output₂ output
  obtain ⟨report₁, h₁⟩ := submitMarket_reports h hpos₁ run₁
  obtain ⟨report₂, _⟩ := submitMarket_reports h₁ hpos₂ run₂
  obtain ⟨report, _⟩ := submitMarket_reports h (show q₁ + q₂ ≠ 0 by bv_omega) run
  rw [taken_add (h.wf locate) side _ hsum] at report
  exact ⟨reported₁, reported₂, reported, e₁, e₂, run₁, run₂, run,
    report₁.addsUp report₂ report sum_taken_le sum_taken_le hsum⟩

/-- The first part ends inside one ask, the second one inside the next. -/
theorem submitMarket_split_two_asks : ∃ e, Reachable {} e ∧
    e.order 1 7 = some ⟨7, .Sell, 100, 10⟩ ∧ e.order 1 8 = some ⟨8, .Sell, 101, 5⟩ ∧
    ∃ reported₁ reported₂ reported e₁ e₂,
      (submitMarket 1 .Buy 4 (List.replicate 4 ⟨0, 0, 0⟩)).run e = .ok reported₁ e₁ ∧
      (submitMarket 1 .Buy 8 (List.replicate 4 ⟨0, 0, 0⟩)).run e₁ = .ok reported₂ e₂ ∧
      (submitMarket 1 .Buy (4 + 8) (List.replicate 4 ⟨0, 0, 0⟩)).run e = .ok reported e₂ ∧
      AddsUp reported₁ reported₂ reported := by
  obtain ⟨e, hreach, h⟩ := exists_reachable {}
    [.apply (.addOrder ⟨⟨1, 0, 0⟩, 7, .Sell, 10, Vector.replicate 8 65, 100⟩),
      .apply (.addOrder ⟨⟨1, 0, 0⟩, 8, .Sell, 5, Vector.replicate 8 65, 101⟩)]
  exact ⟨e, hreach, by rw [h.order_eq]; decide, by rw [h.order_eq]; decide,
    submitMarket_split hreach 1 .Buy (show (4 : Quantity) ≠ 0 by decide)
      (show (8 : Quantity) ≠ 0 by decide) (by decide) _ _ _⟩

end MatchingEngine

end Lob
