import Lob.Engine.Runs

/-!
# Price-time matching

What a submitted order does to a reachable engine, read off the engine itself: the fills are the
greedy sweep of the opposite queue within reach, the queue is what the sweep leaves over, and
everything else stays.
-/

namespace Lob

open Basis ReferenceEngine

/-! ## The reference engine after a sweep -/

namespace ReferenceEngine

variable (m : ReferenceEngine) (locate : StockLocate) (side : Side) (reaches : Price → Bool)
  (quantity : Quantity)

theorem swept_book (locate' : StockLocate) : (m.swept locate side reaches quantity).book locate' =
    if locate' = locate then (m.book locate).take (m.taken locate side reaches quantity)
      else m.book locate' := by
  unfold swept
  cases hm : m.books.lookup locate with
  | none =>
    split_ifs with e
    · rw [e, taken_of_lookup_none hm]
      rfl
    · rfl
  | some r =>
    show ((m.setBook locate _).books.lookup locate').getD _ = _
    rw [setBook_lookup, book_of_lookup hm]
    split_ifs <;> rfl

theorem swept_isSome (locate' : StockLocate) :
    ((m.swept locate side reaches quantity).books.lookup locate').isSome =
      (m.books.lookup locate').isSome := by
  unfold swept
  cases hm : m.books.lookup locate with
  | none => rfl
  | some r =>
    simp only
    rw [setBook_lookup]
    split_ifs with e
    · rw [e, hm]; rfl
    · rfl

theorem swept_limits : (m.swept locate side reaches quantity).limits = m.limits := by
  unfold swept
  cases m.books.lookup locate <;> rfl

variable {m} {locate}

/-- The orders that a sweep fills completely are gone. -/
theorem swept_restingOrders (hwf : (m.book locate).WF) (side : Side) (reaches : Price → Bool)
    (quantity : Quantity) :
    (m.swept locate side reaches quantity).restingOrders +
        ((m.book locate).queue (opposite side) reaches).length =
      m.restingOrders +
        (((m.swept locate side reaches quantity).book locate).queue (opposite side) reaches).length
    := by
  obtain ⟨_, _, hcount, _⟩ := hwf.sweep (opposite side) reaches quantity.toNat
  rw [swept_book, if_pos rfl]
  unfold swept
  cases hm : m.books.lookup locate with
  | none =>
    rw [taken_of_lookup_none hm]
    rfl
  | some r =>
    have hsum := restingOrders_setBook hm (r.take (m.taken locate side reaches quantity))
    rw [book_of_lookup hm] at hcount ⊢
    simp only
    unfold taken at hsum ⊢
    rw [book_of_lookup hm] at hsum ⊢
    omega

end ReferenceEngine

namespace MatchingEngine

/-- What a sweep for `quantity` takes from the opposite queue. -/
def taken (e : MatchingEngine) (locate : StockLocate) (side : Side) (reaches : Price → Bool)
    (quantity : Quantity) : List (OrderView × ℕ) :=
  greedy OrderView.held (e.queue locate (opposite side) reaches) quantity.toNat

/-- The shares that the sweep does not fill. -/
def remainder (e : MatchingEngine) (locate : StockLocate) (side : Side) (reaches : Price → Bool)
    (quantity : Quantity) : ℕ :=
  quantity.toNat - ((e.taken locate side reaches quantity).map Prod.snd).sum

/-- What is reported of a sweep. -/
structure Reports (taken : List (OrderView × ℕ)) (result : MatchResult)
    (output output' : List Fill) : Prop where
  fillCount : result.fillCount = taken.length
  filled : result.filled.toNat = (taken.map Prod.snd).sum
  written : output' = (taken.map toFill).take output.length ++ output.drop taken.length
  truncated : result.fillsTruncated = true ↔ output.length < result.fillCount

/-- The opposite side of `locate` after the sweep; the other locates are untouched. -/
structure Swept (e e' : MatchingEngine) (locate : StockLocate) (side : Side)
    (reaches : Price → Bool) (quantity : Quantity) : Prop where
  queue : e'.queue locate (opposite side) reaches =
    leftover OrderView.held OrderView.shrink (e.queue locate (opposite side) reaches)
      quantity.toNat
  outOfReach : ∀ price, reaches price = false →
    e'.views locate (opposite side) price = e.views locate (opposite side) price
  elsewhere : ∀ locate', locate' ≠ locate → (e'.findBook locate').isSome =
    (e.findBook locate').isSome ∧ ∀ side price, e'.views locate' side price = e.views locate' side price

/-- Whether the caps admit a new order of `locate` when the sweep is over. -/
def Room (e : MatchingEngine) (locate : StockLocate) (side : Side) (reaches : Price → Bool)
    (quantity : Quantity) : Prop :=
  e.restingOrderCount.toNat +
      (leftover OrderView.held OrderView.shrink (e.queue locate (opposite side) reaches)
        quantity.toNat).length <
    e.limits.maxRestingOrders.toNat + (e.queue locate (opposite side) reaches).length ∧
  ((e.findBook locate).isSome ∨ e.instrumentCount < e.limits.maxInstruments.toNat)

/-- What becomes of the remainder of a limit order: it joins its own level, if the caps admit it. -/
structure Rests (e e' : MatchingEngine) (locate : StockLocate) (orderId : OrderId) (side : Side)
    (limitPrice : Price) (remainder : ℕ) (room : Prop) (result : MatchResult) : Prop where
  nothing : remainder = 0 → result.accepted = true ∧ result.resting = 0 ∧ result.unfilled = 0 ∧
    ∀ price, e'.views locate side price = e.views locate side price
  joins : remainder ≠ 0 → room → result.accepted = true ∧ result.resting.toNat = remainder ∧
    result.unfilled = 0 ∧ ∀ price, e'.views locate side price = e.views locate side price ++
      if price = limitPrice then [⟨orderId, side, limitPrice, result.resting⟩] else []
  refused : remainder ≠ 0 → ¬room → result.accepted = false ∧ result.resting = 0 ∧
    result.unfilled.toNat = remainder ∧
    ∀ price, e'.views locate side price = e.views locate side price

variable {limits : EngineLimits} {e e' : MatchingEngine} {m m' : ReferenceEngine}
  {locate : StockLocate} {side : Side} {reaches : Price → Bool} {quantity : Quantity}

theorem Holds.taken_eq (h : Holds e m) :
    e.taken locate side reaches quantity = m.taken locate side reaches quantity := by
  unfold taken ReferenceEngine.taken
  rw [h.queue_eq]

theorem sum_taken_le : ((m.taken locate side reaches quantity).map Prod.snd).sum ≤
    quantity.toNat := by
  unfold ReferenceEngine.taken
  rw [sum_greedy]
  exact Nat.min_le_left _ _

theorem toNat_ofNat_of_le {n : ℕ} (h : n ≤ quantity.toNat) : (BitVec.ofNat 32 n).toNat = n := by
  rw [BitVec.toNat_ofNat, Nat.mod_eq_of_lt (lt_of_le_of_lt h quantity.isLt)]

theorem matchResult_reports (output : List Fill) {result : MatchResult}
    (hresult : ∃ resting unfilled accepted, result = { matchResult quantity output.length
      (m.taken locate side reaches quantity) with
        resting := resting, unfilled := unfilled, accepted := accepted }) :
    Reports (m.taken locate side reaches quantity) result output
      (writeFills (m.taken locate side reaches quantity) output) := by
  obtain ⟨_, _, _, rfl⟩ := hresult
  refine ⟨rfl, toNat_ofNat_of_le sum_taken_le, rfl, ?_⟩
  unfold matchResult
  exact decide_eq_true_iff

/-- The side of the order after the sweep. -/
theorem swept_views_own (hwf : (m.book locate).WF) (price : Price) :
    ((m.swept locate side reaches quantity).book locate).views side price =
      (m.book locate).views side price := by
  obtain ⟨_, _, _, hframe⟩ := hwf.sweep (opposite side) reaches quantity.toNat
  rw [swept_book, if_pos rfl]
  exact (hframe side price fun e => opposite_ne side e.1.symm).2

/-- An engine whose opposite side and other locates are those after the sweep. -/
theorem Holds.swept (h : Holds e m) (h' : Holds e' m')
    (hopposite : ∀ price, (m'.book locate).views (opposite side) price =
      ((m.swept locate side reaches quantity).book locate).views (opposite side) price)
    (helsewhere : ∀ locate', locate' ≠ locate →
      m'.books.lookup locate' = (m.swept locate side reaches quantity).books.lookup locate') :
    Swept e e' locate side reaches quantity := by
  obtain ⟨_, hqueue, _, hframe⟩ :=
    (h.wf locate).sweep (opposite side) reaches quantity.toNat
  refine ⟨?_, fun price hp => ?_, fun locate' hne => ⟨?_, fun side' price => ?_⟩⟩
  · rw [h'.queue_eq, h.queue_eq, ← hqueue]
    unfold ReferenceBook.queue
    refine List.flatMap_congr fun price _ => ?_
    rw [hopposite, swept_book, if_pos rfl]
    rfl
  · rw [h'.views_eq, h.views_eq, hopposite, swept_book, if_pos rfl]
    exact (hframe _ _ fun e => by rw [hp] at e; cases e.2).2
  · rw [h'.isSome_findBook, h.isSome_findBook, helsewhere _ hne, swept_isSome]
  · have hbook : m'.book locate' = m.book locate' := by
      have hs := swept_book m locate side reaches quantity locate'
      rw [if_neg hne] at hs
      rw [← hs]
      unfold ReferenceEngine.book
      rw [helsewhere _ hne]
    rw [h'.views_eq, h.views_eq, hbook]

/-- The caps admit the remainder where there is room. -/
theorem Represents.canCreate_iff_room (h : Represents e m) :
    (m.swept locate side reaches quantity).CanCreateOrder locate ↔
      e.Room locate side reaches quantity := by
  have hcount := swept_restingOrders (h.wf locate) side reaches quantity
  obtain ⟨_, hqueue, _, _⟩ :=
    (h.wf locate).sweep (opposite side) reaches quantity.toNat
  have hswept := swept_book m locate side reaches quantity locate
  rw [if_pos rfl] at hswept
  unfold ReferenceEngine.taken at hswept
  rw [hswept, hqueue] at hcount
  unfold ReferenceEngine.CanCreateOrder Room
  rw [swept_limits, swept_isSome, size_congr (swept_isSome m locate side reaches quantity),
    h.queue_eq, h.isSome_findBook, h.instrumentCount, h.limits, h.count]
  refine and_congr_left' ?_
  omega

/-- A remainder that joins the book `m'` of the swept engine. -/
theorem Holds.joined (h : Holds e m) {orderId : OrderId} {limitPrice : Price} {rest : Quantity}
    (h' : Holds e' ((m.swept locate side reaches quantity).setBook locate
      (((m.swept locate side reaches quantity).book locate).add orderId side limitPrice rest).2))
    (hok : (((m.swept locate side reaches quantity).book locate).add orderId side limitPrice
      rest).1 = true) :
    Swept e e' locate side reaches quantity ∧
      ∀ price, e'.views locate side price = e.views locate side price ++
        if price = limitPrice then [⟨orderId, side, limitPrice, rest⟩] else [] := by
  have hwf : ((m.swept locate side reaches quantity).book locate).WF := by
    rw [swept_book, if_pos rfl]
    exact ((h.wf locate).sweep (opposite side) reaches quantity.toNat).1
  refine ⟨h.swept h' (fun price => ?_) fun locate' hne => ?_, fun price => ?_⟩
  · rw [setBook_book, hwf.add_views hok, if_neg fun e => opposite_ne side e.1, List.append_nil]
  · rw [setBook_lookup, if_neg hne]
  · rw [h'.views_eq, setBook_book, hwf.add_views hok, swept_views_own (h.wf locate), h.views_eq]
    simp only [true_and]

theorem submitLimit_sweeps (h : Represents e m) (place : Placement) (locate : StockLocate)
    (orderId : OrderId) (side : Side) (limitPrice : Price) (hq : quantity ≠ 0)
    (output : List Fill) (hid : e.order locate orderId = none) :
    let reaches := reach true side limitPrice
    ∃ result output' e', (submitLimit (.reliable place) locate orderId side limitPrice quantity
        output).run e = .ok (result, output') e' ∧
      Reports (e.taken locate side reaches quantity) result output output' ∧
      Swept e e' locate side reaches quantity ∧
      Rests e e' locate orderId side limitPrice (e.remainder locate side reaches quantity)
        (e.Room locate side reaches quantity) result := by
  intro reaches
  obtain ⟨e', run, h', _⟩ :=
    submitLimit_simulates h place locate orderId side limitPrice quantity output
  have hcon : (m.book locate).contains orderId = false := by
    rw [h.order_eq] at hid
    unfold ReferenceBook.contains
    unfold ReferenceBook.order at hid
    rw [Option.map_eq_none_iff] at hid
    rw [hid]; rfl
  have hbad : ¬(quantity = 0 ∨ (m.book locate).contains orderId = true) := by
    rintro (hz | hc)
    · exact hq hz
    · rw [hcon] at hc
      cases hc
  have hrest : (matchResult quantity output.length
      (m.taken locate side reaches quantity)).resting.toNat =
      e.remainder locate side reaches quantity := by
    unfold remainder
    rw [h.taken_eq]
    exact toNat_ofNat_of_le (Nat.sub_le _ _)
  have hzero : (matchResult quantity output.length
      (m.taken locate side reaches quantity)).resting = 0 ↔
      e.remainder locate side reaches quantity = 0 := by
    rw [← hrest]
    exact BitVec.toNat_eq
  have hown : ∀ e', Holds e' (m.swept locate side reaches quantity) → ∀ price,
      e'.views locate side price = e.views locate side price := by
    intro e' h' price
    rw [h'.views_eq, h.views_eq]
    exact swept_views_own (h.wf locate) price
  unfold ReferenceEngine.submitLimit at run h'
  rw [if_neg hbad] at run h'
  simp only at run h'
  rw [h.taken_eq]
  by_cases hdone : (matchResult quantity output.length
      (m.taken locate side reaches quantity)).resting = 0
  · rw [if_pos hdone] at run h'
    refine ⟨_, _, e', run, matchResult_reports output ⟨_, _, _, rfl⟩,
      h.swept h'.toHolds (fun _ => rfl) (fun _ _ => rfl), ?_, ?_, ?_⟩
    · exact fun _ => ⟨rfl, hdone, rfl, hown e' h'.toHolds⟩
    · exact fun hne => absurd (hzero.mp hdone) hne
    · exact fun hne => absurd (hzero.mp hdone) hne
  rw [if_neg hdone] at run h'
  by_cases hcan : (m.swept locate side reaches quantity).CanCreateOrder locate
  · rw [if_pos hcan] at run h'
    have hok : (((m.swept locate side reaches quantity).book locate).add orderId side limitPrice
        (matchResult quantity output.length
          (m.taken locate side reaches quantity)).resting).1 = true := by
      unfold ReferenceBook.add
      rw [if_neg]
      rintro (hz | hc)
      · exact hdone hz
      · rw [contains_swept hc] at hcon
        cases hcon
    obtain ⟨hswept, hjoined⟩ := h.joined h'.toHolds hok
    refine ⟨_, _, e', run, matchResult_reports output ⟨_, _, _, rfl⟩, hswept, ?_, ?_, ?_⟩
    · exact fun hz => absurd (hzero.mpr hz) hdone
    · exact fun _ _ => ⟨rfl, hrest, rfl, hjoined⟩
    · exact fun _ hno => absurd (h.canCreate_iff_room.mp hcan) hno
  · rw [if_neg hcan] at run h'
    refine ⟨_, _, e', run, matchResult_reports output ⟨_, _, _, rfl⟩,
      h.swept h'.toHolds (fun _ => rfl) (fun _ _ => rfl), ?_, ?_, ?_⟩
    · exact fun hz => absurd (hzero.mpr hz) hdone
    · exact fun _ hroom => absurd (h.canCreate_iff_room.mpr hroom) hcan
    · exact fun _ _ => ⟨rfl, rfl, hrest, hown e' h'.toHolds⟩

/-- **Matching is the greedy price-time sweep.** A limit order whose id does not rest, and a market
order, return: they report the sweep, leave the opposite side as the sweep does and the other
locates as they were, and the remainder of a limit order rests where there is room for it. -/
theorem submit_sweeps (h : Reachable limits e) (hq : quantity ≠ 0) (place : Placement)
    (locate : StockLocate) (orderId : OrderId) (side : Side) (limitPrice : Price)
    (output : List Fill) :
    (e.order locate orderId = none → let reaches := reach true side limitPrice
      ∃ result output' e', (submitLimit (.reliable place) locate orderId side limitPrice quantity
          output).run e = .ok (result, output') e' ∧
        Reports (e.taken locate side reaches quantity) result output output' ∧
        Swept e e' locate side reaches quantity ∧
        Rests e e' locate orderId side limitPrice (e.remainder locate side reaches quantity)
          (e.Room locate side reaches quantity) result) ∧
    (let reaches := reach false side 0
      ∃ result output' e', (submitMarket locate side quantity output).run e =
          .ok (result, output') e' ∧
        Reports (e.taken locate side reaches quantity) result output output' ∧
        Swept e e' locate side reaches quantity ∧
        result.accepted = true ∧ result.resting = 0 ∧
        result.unfilled.toNat = e.remainder locate side reaches quantity ∧
        ∀ price, e'.views locate side price = e.views locate side price) := by
  obtain ⟨m, h, _⟩ := h.represents
  refine ⟨submitLimit_sweeps h place locate orderId side limitPrice hq output, ?_⟩
  · intro reaches
    obtain ⟨e', run, h', _⟩ := submitMarket_simulates h locate side quantity output
    have hm : m.submitMarket locate side quantity output = (({ matchResult quantity output.length
        (m.taken locate side reaches quantity) with
          unfilled := (matchResult quantity output.length
            (m.taken locate side reaches quantity)).resting
          resting := 0 }, writeFills (m.taken locate side reaches quantity) output),
        m.swept locate side reaches quantity) := if_neg hq
    rw [hm] at run h'
    refine ⟨_, _, e', run, ?_, h.swept h'.toHolds (fun _ => rfl) (fun _ _ => rfl), rfl, rfl, ?_, ?_⟩
    · rw [h.taken_eq]
      exact matchResult_reports output ⟨_, _, _, rfl⟩
    · unfold remainder
      rw [h.taken_eq]
      exact toNat_ofNat_of_le (Nat.sub_le _ _)
    · intro price
      rw [h'.views_eq, h.views_eq]
      exact swept_views_own (h.wf locate) price

/-- A market order against a resting ask, and a limit order that crosses it. -/
theorem submit_sweeps_against_ask : ∃ e, Reachable {} e ∧
    e.order 1 7 = some ⟨7, .Sell, 100, 10⟩ ∧
    (∃ result output' e', (submitMarket 1 .Buy 5 []).run e = .ok (result, output') e' ∧
      Reports (e.taken 1 .Buy (reach false .Buy 0) 5) result [] output') ∧
    ∃ result output' e', (submitLimit (.reliable .bump) 1 9 .Buy 100 5 []).run e =
        .ok (result, output') e' ∧
      Reports (e.taken 1 .Buy (reach true .Buy 100) 5) result [] output' := by
  obtain ⟨e, hreach, h⟩ := exists_reachable {}
    [.apply (.addOrder ⟨⟨1, 0, 0⟩, 7, .Sell, 10, Vector.replicate 8 65, 100⟩)]
  obtain ⟨hlimit, hmarket⟩ :=
    submit_sweeps hreach (show (5 : Quantity) ≠ 0 by decide) .bump 1 9 .Buy 100 []
  obtain ⟨_, _, _, run, reports, _⟩ := hlimit (by rw [h.order_eq]; decide)
  obtain ⟨_, _, _, run', reports', _⟩ := hmarket
  exact ⟨e, hreach, by rw [h.order_eq]; decide, ⟨_, _, _, run', reports'⟩, ⟨_, _, _, run, reports⟩⟩

end MatchingEngine

end Lob
