import Lob.Engine.Simulation

/-!
# Matching is the greedy sweep

One round of the `match` loop takes the head of the opposite queue, which is the first step of the
sweep (`WF.sweep_step`); an induction over the rounds gives the whole sweep. `quantity` rounds are
enough, since each takes at least one share.
-/

namespace Lob

open Basis ReferenceEngine

/-! ## The best price of the opposite side -/

theorem OrderBook.Observes.oppositeBest {b : OrderBook} {r : ReferenceBook} (h : b.Observes r)
    (side : Side) :
    ∃ best, MatchingEngine.oppositeBest side b = .ok best ∧ r.IsBest (opposite side) best := by
  cases side with
  | Buy =>
    obtain ⟨best, hbest, his, _⟩ := h.bestAsk
    exact ⟨best, hbest, his⟩
  | Sell =>
    obtain ⟨best, hbest, his, _⟩ := h.bestBid
    exact ⟨best, hbest, his⟩

/-- The front order of the best price within reach heads the queue. -/
theorem ReferenceBook.WF.front_of_best {r : ReferenceBook} {side : Side} {price : Price}
    {reaches : Price → Bool} (h : r.WF) (hbest : r.IsBest side (some price))
    (hp : reaches price = true) :
    ∃ v Q, r.frontOrder side price = some v ∧ v.price = price ∧ r.queue side reaches = v :: Q := by
  obtain ⟨id, ids, hl⟩ := List.exists_cons_of_ne_nil hbest.levels_ne
  obtain ⟨v, hv, _, hviews⟩ := h.views_of_levels hl
  obtain ⟨rest, hqueue⟩ := hbest.queue_eq hp
  refine ⟨v, ids.filterMap r.order ++ rest, ?_, ?_, by rw [hqueue, hviews]; rfl⟩
  · unfold ReferenceBook.frontOrder
    rw [hl]
    exact hv
  · exact (h.mem_views (v := v) (by rw [hviews]; simp)).2.1

namespace ReferenceEngine

theorem reach_closed (hasLimit : Bool) (side : Side) (limitPrice : Price) :
    ReferenceBook.Closed (opposite side) (reach hasLimit side limitPrice) := by
  intro price price' hb hr
  unfold reach MatchingEngine.crosses at hr ⊢
  cases hasLimit with
  | false => rfl
  | true =>
    cases side <;> simp only [opposite, Better] at hb <;>
      simp only [Bool.not_true, Bool.false_or, ge_iff_le, decide_eq_true_eq] at hr ⊢
    · exact BitVec.le_trans (BitVec.le_of_lt hb) hr
    · exact BitVec.le_trans hr (BitVec.le_of_lt hb)

theorem reach_eq_false {hasLimit : Bool} {side : Side} {limitPrice price : Price} :
    (hasLimit && !MatchingEngine.crosses side limitPrice price) = true ↔
      reach hasLimit side limitPrice price = false := by
  unfold reach
  cases hasLimit <;> simp

end ReferenceEngine

namespace MatchingEngine

/-! ## The report -/

/-- The result and the output after a list of fills. -/
def report (fills : List Fill) (result : MatchResult) (output : List Fill) :
    MatchResult × List Fill :=
  fills.foldl (fun reported fill => recordFill fill reported.1 reported.2) (result, output)

/-- One more slot is written. -/
theorem writeFills_concat (taken : List (OrderView × ℕ)) (x : OrderView × ℕ) (output : List Fill) :
    (writeFills taken output).set taken.length (toFill x) = writeFills (taken ++ [x]) output := by
  unfold writeFills
  rw [List.map_append, List.length_append]
  by_cases hlen : taken.length < output.length
  · have htake : ((taken.map toFill).take output.length).length = taken.length := by
      rw [List.length_take, List.length_map]; omega
    rw [List.set_append_right _ _ (by omega), htake, Nat.sub_self,
      List.drop_eq_getElem_cons hlen, List.set_cons_zero, List.take_append,
      List.take_of_length_le (by rw [List.length_map]; omega), List.length_map]
    obtain ⟨slots, hslots⟩ : ∃ slots, output.length - taken.length = slots + 1 :=
      ⟨output.length - taken.length - 1, by omega⟩
    rw [hslots, List.append_assoc, List.map_singleton, List.take_succ_cons, List.take_nil]
    rfl
  · rw [List.drop_of_length_le (by omega), List.drop_of_length_le (by simp; omega),
      List.append_nil, List.append_nil,
      List.set_eq_of_length_le (by rw [List.length_take, List.length_map]; omega),
      List.take_append_of_le_length (by rw [List.length_map]; omega)]

theorem length_writeFills (taken : List (OrderView × ℕ)) (output : List Fill) :
    (writeFills taken output).length = output.length := by
  unfold writeFills
  rw [List.length_append, List.length_take, List.length_map, List.length_drop]
  omega

/-- **The report of a sweep.** -/
theorem report_eq (taken : List (OrderView × ℕ)) (quantity : Quantity) (output : List Fill) :
    report (taken.map toFill) {} output =
      ({ matchResult quantity output.length taken with resting := 0 }, writeFills taken output) := by
  induction taken using List.reverseRecOn with
  | nil =>
    unfold writeFills matchResult
    simp [report]
  | append_singleton taken x ih =>
    unfold report at ih ⊢
    rw [List.map_append, List.foldl_append, ih, List.map_cons, List.map_nil, List.foldl_cons,
      List.foldl_nil]
    unfold recordFill
    refine Prod.ext ?_ ?_
    · unfold matchResult
      simp only [length_writeFills, List.length_append, List.length_singleton, List.map_append,
        List.map_cons, List.map_nil, List.sum_append, List.sum_singleton, BitVec.ofNat_add, toFill]
      congr 1
      rw [← Bool.decide_or]
      exact decide_eq_decide.mpr (by omega)
    · exact writeFills_concat taken x output

/-! ## The loop -/

variable {e : MatchingEngine} {m : ReferenceEngine} {locate : StockLocate} {r : ReferenceBook}

/-- The engine after an execution; the counter follows the book. -/
theorem execute_ok (h : Represents e m) (hm : m.books.lookup locate = some r) {v : OrderView}
    {k : Quantity} (hok : (r.execute v.orderId k).1 = true)
    (ht : ReferenceBook.Taken r (r.execute v.orderId k).2 v k) :
    ∃ e₁, (onBook locate (OrderBook.execute v.orderId k)).run e = .ok true e₁ ∧
      let e₂ : MatchingEngine := if k = v.quantity then
        { e₁ with restingOrderCount := e₁.restingOrderCount - 1 } else e₁
      Represents e₂ (m.setBook locate (r.execute v.orderId k).2) ∧ e₂.stats = e.stats := by
  obtain ⟨e₁, run, h₁, c₁, _⟩ := onBook_ok h.toHolds hm
    fun b hb => OrderBook.execute_returns v.orderId k hb
  rw [hok] at run
  refine ⟨e₁, run, ?_⟩
  have hsum := restingOrders_setBook hm (r.execute v.orderId k).2
  have hcount := h.count
  have htaken := ht.orderCount
  have hle := orderCount_le hm
  by_cases hfull : k = v.quantity
  · rw [if_pos hfull] at htaken ⊢
    refine ⟨⟨h₁.of_books rfl rfl, ?_⟩, c₁.stats⟩
    show (e₁.restingOrderCount - 1).toNat = _
    have := toNat_sub_one (x := e₁.restingOrderCount) (by rw [c₁.restingOrderCount]; omega)
    rw [c₁.restingOrderCount] at this ⊢
    omega
  · rw [if_neg hfull] at htaken ⊢
    refine ⟨⟨h₁, ?_⟩, c₁.stats⟩
    rw [c₁.restingOrderCount]
    omega

/-- The quantity of a fill is what the sweep takes. -/
theorem fillQuantity_eq (remaining : Quantity) (v : OrderView) :
    (if remaining < v.quantity then remaining else v.quantity) =
      BitVec.ofNat 32 (min remaining.toNat v.held) := by
  refine BitVec.eq_of_toNat_eq ?_
  rw [ReferenceBook.toNat_ofNat_min]
  unfold OrderView.held
  split_ifs with h
  · rw [BitVec.lt_def] at h; omega
  · rw [BitVec.lt_def] at h; omega

/-- A run of the loop from `e` on makes the sweep `taken` of the book `r`. -/
def Sweeps (loop : Engine (MatchResult × List Fill)) (e : MatchingEngine) (m : ReferenceEngine)
    (locate : StockLocate) (r : ReferenceBook) (remaining : Quantity) (result : MatchResult)
    (output : List Fill) (taken : List (OrderView × ℕ)) : Prop :=
  ∃ e', loop.run e =
      .ok ({ (report (taken.map toFill) result output).1 with
          resting := BitVec.ofNat 32 (remaining.toNat - (taken.map Prod.snd).sum) },
        (report (taken.map toFill) result output).2) e' ∧
    Represents e' (m.setBook locate (r.take taken)) ∧ e'.stats = e.stats

variable {side : Side} {limitPrice : Price} {hasLimit : Bool} {fuel : ℕ} {remaining : Quantity}
  {result : MatchResult} {output : List Fill}

/-- A loop that stops takes nothing. -/
theorem sweeps_nil {loop : Engine (MatchResult × List Fill)} {taken : List (OrderView × ℕ)}
    (h : Represents e m) (hm : m.books.lookup locate = some r)
    (hrun : loop.run e = .ok ({ result with resting := remaining }, output) e)
    (htaken : taken = []) : Sweeps loop e m locate r remaining result output taken := by
  subst htaken
  refine ⟨e, ?_, ?_, rfl⟩
  · rw [hrun]
    simp [report]
  · unfold ReferenceBook.take
    rw [List.foldl_nil, setBook_same hm]
    exact h

/-- A round that takes `k` of the head, and the sweep of the rest. -/
theorem sweeps_cons {loop loop' : Engine (MatchResult × List Fill)} {e₂ : MatchingEngine}
    {v : OrderView} {k : Quantity} {taken : List (OrderView × ℕ)} (hrun : loop.run e = loop'.run e₂)
    (hk : k ≤ remaining) (hstats : e₂.stats = e.stats)
    (h : Sweeps loop' e₂ (m.setBook locate (r.execute v.orderId k).2) locate
      (r.execute v.orderId k).2 (remaining - k)
      (recordFill ⟨v.orderId, v.price, k⟩ result output).1
      (recordFill ⟨v.orderId, v.price, k⟩ result output).2 taken) :
    Sweeps loop e m locate r remaining result output ((v, k.toNat) :: taken) := by
  obtain ⟨e', run, hrep, hstats'⟩ := h
  have hfill : toFill (v, k.toNat) = ⟨v.orderId, v.price, k⟩ := by
    unfold toFill
    rw [BitVec.ofNat_toNat, BitVec.setWidth_eq]
  refine ⟨e', ?_, ?_, hstats'.trans hstats⟩
  · rw [hrun, run]
    unfold report
    rw [List.map_cons, List.foldl_cons, hfill, List.map_cons, List.sum_cons,
      BitVec.toNat_sub_of_le hk, Nat.sub_add_eq]
  · unfold ReferenceBook.take at hrep ⊢
    rw [List.foldl_cons, BitVec.ofNat_toNat, BitVec.setWidth_eq]
    rw [setBook_setBook] at hrep
    exact hrep

/-- Nothing remains, or nothing is in reach. -/
theorem matchLoop_stop (h : Represents e m) (hm : m.books.lookup locate = some r) (hwf : r.WF)
    (hfuel : remaining.toNat ≤ fuel) (hstop : remaining = 0 ∨
      r.queue (opposite side) (reach hasLimit side limitPrice) = []) (result : MatchResult)
    (output : List Fill) :
    (matchLoop locate side limitPrice hasLimit fuel remaining result output).run e =
      .ok ({ result with resting := remaining }, output) e := by
  unfold matchLoop
  by_cases hzero : remaining = 0
  · rw [if_pos hzero]
    rfl
  rw [if_neg hzero]
  cases fuel with
  | zero => exact absurd (BitVec.eq_of_toNat_eq (Nat.le_zero.mp hfuel)) hzero
  | succ fuel =>
    obtain ⟨b, _, hfind, hrep, _⟩ := h.findBook_some hm
    obtain ⟨best, hbest, his⟩ := hrep.observes.oppositeBest side
    rw [run_bind_ok (readBook_ok hfind hbest)]
    cases best with
    | none => rfl
    | some price =>
      have hreach : reach hasLimit side limitPrice price = false := by
        by_contra hreach
        rw [Bool.not_eq_false] at hreach
        obtain ⟨_, _, _, _, hQ⟩ := hwf.front_of_best his hreach
        rw [hstop.resolve_left hzero] at hQ
        cases hQ
      simp only
      rw [if_pos (reach_eq_false.mpr hreach)]
      rfl

/-- A round fills from the head of the queue. -/
theorem matchLoop_round (h : Represents e m) (hm : m.books.lookup locate = some r) (hwf : r.WF)
    {v : OrderView} {Q : List OrderView}
    (hQ : r.queue (opposite side) (reach hasLimit side limitPrice) = v :: Q)
    (hzero : remaining ≠ 0) :
    let k := if remaining < v.quantity then remaining else v.quantity
    ∃ e₁, (onBook locate (OrderBook.execute v.orderId k)).run e = .ok true e₁ ∧
      let e₂ : MatchingEngine := if k = v.quantity then
        { e₁ with restingOrderCount := e₁.restingOrderCount - 1 } else e₁
      Represents e₂ (m.setBook locate (r.execute v.orderId k).2) ∧ e₂.stats = e.stats ∧
      ∀ fuel result output,
        (matchLoop locate side limitPrice hasLimit (fuel + 1) remaining result output).run e =
          (matchLoop locate side limitPrice hasLimit fuel (remaining - k)
            (recordFill ⟨v.orderId, v.price, k⟩ result output).1
            (recordFill ⟨v.orderId, v.price, k⟩ result output).2).run e₂ := by
  intro k
  obtain ⟨b, _, hfind, hrep, _⟩ := h.findBook_some hm
  obtain ⟨best, hbest, his⟩ := hrep.observes.oppositeBest side
  have hclosed := reach_closed hasLimit side limitPrice
  have hn : remaining.toNat ≠ 0 := fun hn => hzero (BitVec.eq_of_toNat_eq hn)
  obtain ⟨hok, ht, _⟩ := hwf.sweep_step hQ hn
  rw [← fillQuantity_eq] at hok ht
  obtain ⟨e₁, run₁, h₂, hstats₂⟩ := execute_ok h hm hok ht
  refine ⟨e₁, run₁, h₂, hstats₂, fun fuel result output => ?_⟩
  cases best with
  | none =>
    rw [ReferenceBook.queue_nil fun price _ => his.none_levels price] at hQ
    cases hQ
  | some price =>
    have hreach : reach hasLimit side limitPrice price = true := by
      by_contra hreach
      rw [his.queue_stop hclosed (Bool.not_eq_true _ ▸ hreach)] at hQ
      cases hQ
    obtain ⟨v', Q', hfront, rfl, hQ'⟩ := hwf.front_of_best his hreach
    obtain ⟨rfl, rfl⟩ := List.cons.inj (hQ.symm.trans hQ')
    conv_lhs => unfold matchLoop
    rw [if_neg hzero, run_bind_ok (readBook_ok hfind hbest)]
    simp only
    rw [if_neg (by rw [reach_eq_false, hreach]; simp),
      run_bind_ok (readBook_ok hfind (hrep.observes.frontOrder _ _)), hfront]
    simp only
    rw [run_bind_ok run₁]
    show EStateM.run (if k = v.quantity then _ else _) e₁ = _
    by_cases hfull : k = v.quantity
    · rw [if_pos hfull, if_pos hfull]; rfl
    · rw [if_neg hfull, if_neg hfull]

/-- **The loop of `match`** makes the sweep of the opposite queue. -/
theorem matchLoop_sweeps (side : Side) (limitPrice : Price) (hasLimit : Bool) (output : List Fill)
    (h : Represents e m) (hm : m.books.lookup locate = some r) (hwf : r.WF)
    (hfuel : remaining.toNat ≤ fuel) :
    Sweeps (matchLoop locate side limitPrice hasLimit fuel remaining result output) e m locate r
      remaining result output
      (greedy OrderView.held (r.queue (opposite side) (reach hasLimit side limitPrice))
        remaining.toNat) := by
  induction fuel generalizing e m r remaining result output with
  | zero =>
    obtain rfl : remaining = 0 := BitVec.eq_of_toNat_eq (Nat.le_zero.mp hfuel)
    exact sweeps_nil h hm (matchLoop_stop h hm hwf hfuel (Or.inl rfl) _ _) (greedy_zero _ _)
  | succ fuel ih =>
    by_cases hzero : remaining = 0
    · rw [hzero] at hfuel ⊢
      exact sweeps_nil h hm (matchLoop_stop h hm hwf hfuel (Or.inl rfl) _ _) (greedy_zero _ _)
    cases hQ : r.queue (opposite side) (reach hasLimit side limitPrice) with
    | nil => exact sweeps_nil h hm (matchLoop_stop h hm hwf hfuel (Or.inr hQ) _ _) rfl
    | cons v Q =>
      have hn : remaining.toNat ≠ 0 := fun hn => hzero (BitVec.eq_of_toNat_eq hn)
      obtain ⟨_, ht, hgreedy, _⟩ := hwf.sweep_step hQ hn
      obtain ⟨_, _, hpos, _, _⟩ := hwf.execute_head hQ
      have hk := ReferenceBook.toNat_ofNat_min v remaining.toNat
      rw [← fillQuantity_eq] at ht hgreedy hk
      obtain ⟨e₁, _, h₂, hstats₂, hround⟩ := matchLoop_round h hm hwf hQ hzero
      set k := if remaining < v.quantity then remaining else v.quantity
      have hle : k ≤ remaining := by rw [BitVec.le_def]; omega
      rw [hgreedy, ← hk, ← BitVec.toNat_sub_of_le hle]
      refine sweeps_cons (hround _ _ _) hle hstats₂
        (ih _ h₂ (by rw [setBook_lookup, if_pos rfl]) ht.wf ?_)
      rw [BitVec.toNat_sub_of_le hle]
      omega

theorem matchOrder_ok (h : Represents e m) (locate : StockLocate) (side : Side)
    (limitPrice : Price) (quantity : Quantity) (hasLimit : Bool) (output : List Fill) :
    let taken := m.taken locate side (reach hasLimit side limitPrice) quantity
    ∃ e', (matchOrder locate side limitPrice quantity hasLimit output).run e =
        .ok (matchResult quantity output.length taken, writeFills taken output) e' ∧
      Represents e' (m.swept locate side (reach hasLimit side limitPrice) quantity) ∧
      e'.stats = e.stats := by
  intro taken
  unfold matchOrder ReferenceEngine.swept
  rw [EStateM.run_bind]
  simp only [EStateM.run_get]
  cases hm : m.books.lookup locate with
  | none =>
    rw [h.findBook_none hm]
    refine ⟨e, ?_, h, rfl⟩
    rw [show taken = [] from taken_of_lookup_none hm _ _ _]
    unfold matchResult writeFills
    simp
  | some r =>
    obtain ⟨b, _, hfind, hrep, _⟩ := h.findBook_some hm
    obtain ⟨q, hlay, _, hag⟩ := hrep
    rw [hfind]
    obtain ⟨e', run, hrep', hstats⟩ :=
      matchLoop_sweeps side limitPrice hasLimit output h hm (hag.wf hlay) le_rfl
    have htaken : taken = greedy OrderView.held
        (r.queue (opposite side) (reach hasLimit side limitPrice)) quantity.toNat := by
      unfold taken ReferenceEngine.taken
      rw [book_of_lookup hm]
    rw [← htaken, report_eq taken quantity] at run
    rw [← htaken] at hrep'
    exact ⟨e', run, hrep', hstats⟩

/-! ## Submitted orders -/

theorem Holds.contains (h : Holds e m) (locate : StockLocate) (orderId : OrderId) :
    (e.findBook locate).any (fun book => book.contains orderId) =
      (m.book locate).contains orderId := by
  cases hm : m.books.lookup locate with
  | none => rw [h.findBook_none hm, book_of_lookup_none hm]; rfl
  | some r =>
    obtain ⟨b, _, hfind, hrep, _⟩ := h.findBook_some hm
    rw [hfind, book_of_lookup hm]
    exact hrep.observes.contains orderId

/-- **`submitMarket`** returns what the reference engine returns. -/
theorem submitMarket_simulates (h : Represents e m) (locate : StockLocate) (side : Side)
    (quantity : Quantity) (output : List Fill) :
    ∃ e', (submitMarket locate side quantity output).run e =
        .ok (m.submitMarket locate side quantity output).1 e' ∧
      Represents e' (m.submitMarket locate side quantity output).2 ∧ e'.stats = e.stats := by
  unfold submitMarket ReferenceEngine.submitMarket
  by_cases hzero : quantity = 0
  · rw [if_pos hzero, if_pos hzero]
    exact ⟨e, rfl, h, rfl⟩
  · rw [if_neg hzero, if_neg hzero]
    obtain ⟨e', run, hrep, hstats⟩ := matchOrder_ok h locate side 0 quantity false output
    refine ⟨e', ?_, hrep, hstats⟩
    rw [run_bind_ok run]
    rfl

/-- What is left of an order can rest. -/
theorem contains_swept {reaches : Price → Bool} {quantity : Quantity} {orderId : OrderId}
    (h : ((m.swept locate side reaches quantity).book locate).contains orderId = true) :
    (m.book locate).contains orderId = true := by
  unfold ReferenceEngine.swept at h
  cases hm : m.books.lookup locate with
  | none => rw [hm] at h; exact h
  | some r =>
    rw [hm] at h
    rw [book_of_lookup (by rw [setBook_lookup, if_pos rfl])] at h
    rw [book_of_lookup hm]
    exact ReferenceBook.contains_take h

/-- A new order, in a book that is made for it where the locate has none. -/
theorem addNew_ok (h : Represents e m) (place : Placement) (locate : StockLocate)
    (orderId : OrderId) (side : Side) (price : Price) (quantity : Quantity)
    (hcan : m.CanCreateOrder locate)
    (hok : ((m.book locate).add orderId side price quantity).1 = true) :
    ∃ e₁ e₂, (ensureBook (.reliable place) locate).run e = .ok () e₁ ∧
      (onBook locate (OrderBook.add (.reliable place) orderId side price quantity)).run e₁ =
        .ok true e₂ ∧
      Represents { e₂ with restingOrderCount := e₂.restingOrderCount + 1 }
        (m.setBook locate ((m.book locate).add orderId side price quantity).2) ∧
      e₂.stats = e.stats := by
  obtain ⟨e₁, e₂, run₁, run₂, h₂, hcount, hstats, _⟩ :=
    addToBook_ok h place locate orderId side price quantity
  rw [hok] at run₂
  refine ⟨e₁, e₂, run₁, run₂, ⟨h₂.of_books rfl rfl, ?_⟩, hstats⟩
  show (e₂.restingOrderCount + 1).toNat = _
  rw [hcount]
  exact h.count_added hcan hok

/-- **`submitLimit`** returns what the reference engine returns. -/
theorem submitLimit_simulates (h : Represents e m) (place : Placement) (locate : StockLocate)
    (orderId : OrderId) (side : Side) (limitPrice : Price) (quantity : Quantity)
    (output : List Fill) :
    ∃ e', (submitLimit (.reliable place) locate orderId side limitPrice quantity output).run e =
        .ok (m.submitLimit locate orderId side limitPrice quantity output).1 e' ∧
      Represents e' (m.submitLimit locate orderId side limitPrice quantity output).2 ∧
      e'.stats = e.stats := by
  unfold submitLimit ReferenceEngine.submitLimit
  rw [EStateM.run_bind]
  simp only [EStateM.run_get, h.contains]
  by_cases hbad : quantity = 0 ∨ (m.book locate).contains orderId = true
  · rw [if_pos hbad, if_pos hbad]
    exact ⟨e, rfl, h, rfl⟩
  rw [if_neg hbad, if_neg hbad]
  rw [not_or] at hbad
  obtain ⟨e₁, run₁, h₁, hstats₁⟩ := matchOrder_ok h locate side limitPrice quantity true output
  rw [run_bind_ok run₁]
  simp only
  set taken := m.taken locate side (reach true side limitPrice) quantity
  set swept := m.swept locate side (reach true side limitPrice) quantity with hswept
  set result := matchResult quantity output.length taken with hresult
  by_cases hdone : result.resting = 0
  · rw [if_pos hdone, if_pos hdone]
    exact ⟨e₁, rfl, h₁, hstats₁⟩
  rw [if_neg hdone, if_neg hdone, EStateM.run_bind]
  simp only [EStateM.run_get]
  by_cases hcan : swept.CanCreateOrder locate
  · rw [if_pos hcan, (h₁.canCreateOrder_iff locate).mpr hcan, if_neg (by simp)]
    have hok : ((swept.book locate).add orderId side limitPrice result.resting).1 = true := by
      unfold ReferenceBook.add
      rw [if_neg]
      rintro (hzero | hcon)
      · exact hdone hzero
      · exact hbad.2 (contains_swept hcon)
    obtain ⟨e₂, e₃, run₂, run₃, h₃, hstats₃⟩ :=
      addNew_ok h₁ place locate orderId side limitPrice result.resting hcan hok
    rw [run_bind_ok run₂, run_bind_ok run₃]
    exact ⟨_, rfl, h₃, hstats₃.trans hstats₁⟩
  · rw [if_neg hcan]
    rw [← h₁.canCreateOrder_iff, Bool.not_eq_true] at hcan
    rw [hcan]
    refine ⟨e₁, ?_, h₁, hstats₁⟩
    simp [hresult, matchResult]

end MatchingEngine

end Lob
