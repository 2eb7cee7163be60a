import Lob.Engine.Alike
import Lob.Engine.Checkpoint
import Lob.Engine.Exceptions

/-!
# Going on after failed allocations

A call that fails in an allocation may leave a new empty book, and an order that was to rest may have
traded. What the books hold is known all the same: after any run, some of whose calls have failed, the
engine cannot be told apart from one that has not seen a failure.
-/

namespace Lob

open Basis ReferenceEngine

/-! ## Calls that fail -/

namespace ReferenceEngine

variable {m m' : ReferenceEngine} {locate : StockLocate}

/-- The engine once `locate` has a book. -/
def opened (m : ReferenceEngine) (locate : StockLocate) : ReferenceEngine :=
  m.setBook locate (m.book locate)

/-- What is left of an order that was to be added: nothing, or the book made for it. -/
def MayOpen (m : ReferenceEngine) (locate : StockLocate) (m' : ReferenceEngine) : Prop :=
  m.CanCreateOrder locate ∧ (m' = m ∨ m' = m.opened locate)

end ReferenceEngine

/-- What a call leaves that has failed in an allocation. A submitted order has traded, and its remainder
was to rest. -/
def EngineCall.Leaves (m m' : ReferenceEngine) : EngineCall → Prop
  | .apply event =>
    match event with
    | .addOrder message => m.MayOpen message.header.stockLocate m'
    | .addAttributedOrder message => m.MayOpen message.header.stockLocate m'
    | .orderReplace _ => m' = m
    | _ => False
  | .submitLimit locate orderId side limitPrice quantity output =>
    quantity ≠ 0 ∧ (m.book locate).contains orderId = false ∧
      (matchResult quantity output.length
        (m.taken locate side (reach true side limitPrice) quantity)).resting ≠ 0 ∧
      (m.swept locate side (reach true side limitPrice) quantity).MayOpen locate m'
  | _ => False

/-- The counters of the messages after a call, none its result where it failed. -/
def EngineCall.counted (stats : ReplayStats) : EngineCall → Option CallResult → ReplayStats
  | .apply _, some (.applied result) => stats.record result.action
  | .apply _, _ => { stats with messages := stats.messages + 1 }
  | .clear, _ => .zero
  | _, _ => stats

namespace MatchingEngine

variable {e e' t t' : MatchingEngine} {m : ReferenceEngine} {locate : StockLocate} {al : Alloc}
  {stats : ReplayStats} {P P' : ReferenceEngine → Prop}

/-- An engine that represents a reference engine up to what failed allocations leave behind. -/
def Mirrors (e : MatchingEngine) (m : ReferenceEngine) : Prop := ∃ t, Alike e t ∧ Represents t m

/-- How a call fails: in an allocation, with these counters, and with the books of an engine in `P`. -/
def Fails (al : Alloc) (stats : ReplayStats) (P : ReferenceEngine → Prop) (fault : Fault)
    (e : MatchingEngine) : Prop :=
  fault = .badAlloc ∧ (∃ site, al.fails site = true) ∧ e.stats = stats ∧ ∃ m, P m ∧ Mirrors e m

theorem Fails.mono (h : ∀ m, P m → P' m) (fault : Fault) (e : MatchingEngine)
    (hfails : Fails al stats P fault e) : Fails al stats P' fault e := by
  obtain ⟨hfault, hsite, hstats, m, hm, hmirrors⟩ := hfails
  exact ⟨hfault, hsite, hstats, m, h m hm, hmirrors⟩

/-- A book is made where there is none. -/
theorem ensureBook_represents (h : Represents t m) (place : Placement) (locate : StockLocate) :
    ∃ t', (ensureBook (.reliable place) locate).run t = .ok () t' ∧ Represents t' (m.opened locate) ∧
      t'.stats = t.stats := by
  obtain ⟨t', run, holds, same, _⟩ := ensureBook_ok h.toHolds place locate
  refine ⟨t', run, ⟨holds, ?_⟩, same.stats⟩
  have hsum := restingOrders_setBook_book (m := m) locate (m.book locate)
  show _ = (m.setBook locate (m.book locate)).restingOrders
  rw [same.restingOrderCount, h.count]
  omega

theorem ensureBook_follows (h : Represents t m) (hgranted : Granted al e locate) (place : Placement) :
    Follows (fun e' t' => Alike e' t' ∧ e' = e ∧ t' = t) (ensureBook al locate)
      (ensureBook (.reliable place) locate) (fun _ => Alike) (Fails al t.stats (· = m)) := by
  rintro e t ⟨hlike, rfl, rfl⟩ a t' run
  rcases hlike.entry locate with ⟨he, ht⟩ | ⟨b, b', he, ht, _⟩
  · rw [ensureBook_new ht rfl, if_neg (by simp)] at run
    cases run
    cases hnode : al.fails .bookMapNode with
    | true =>
      refine Or.inr ⟨_, e, ?_, rfl, ⟨_, hnode⟩, hlike.stats, m, rfl, t, hlike, h⟩
      unfold ensureBook
      rw [run_get_bind]
      simp only [he]
      rw [run_bind_error (Alloc.request_error hnode e)]
    | false =>
      obtain ⟨hobject, himpl⟩ := (hgranted he).resolve_left (by rw [hnode]; exact Bool.false_ne_true)
      refine Or.inl ⟨_, ?_, hlike.setBook
        ⟨_, OrderBook.empty_represents, OrderBook.empty_represents⟩ locate⟩
      rw [ensureBook_new he hnode, hobject, himpl, if_neg (by simp)]
  · have hstart : ∀ (al : Alloc) {e : MatchingEngine} {b : OrderBook},
        e.books.lookup locate = some (some b) → (ensureBook al locate).run e = .ok () e := by
      intro al e b he
      unfold ensureBook
      rw [run_get_bind, he]
      rfl
    rw [hstart _ ht] at run
    cases run
    exact Or.inl ⟨e, hstart al he, hlike⟩

/-- An order is added to the book of a locate, new or not, and the call goes on. -/
theorem addOrder_follows (h : Represents t m) (hcan : m.CanCreateOrder locate)
    (hgranted : Granted al e locate) (place : Placement) (orderId : OrderId) (side : Side)
    (price : Price) (quantity : Quantity) {α : Type} {rest : Bool → Engine α}
    (hrest : ∀ added, Follows Alike (rest added) (rest added) (fun _ => Alike)
      (Fails al t.stats (m.MayOpen locate))) :
    Follows (fun e' t' => Alike e' t' ∧ e' = e ∧ t' = t)
      (ensureBook al locate >>= fun _ =>
        onBook locate (OrderBook.add al orderId side price quantity) >>= rest)
      (ensureBook (.reliable place) locate >>= fun _ =>
        onBook locate (OrderBook.add (.reliable place) orderId side price quantity) >>= rest)
      (fun _ => Alike) (Fails al t.stats (m.MayOpen locate)) := by
  obtain ⟨t₁, run₁, h₁, hstats₁⟩ := ensureBook_represents h place locate
  have hbefore : ∀ m', m' = m → m.MayOpen locate m' := fun m' hm' => ⟨hcan, Or.inl hm'⟩
  have hensure := (ensureBook_follows h hgranted place).error (Fails.mono hbefore)
  have hrun : ∀ e' t' : MatchingEngine, (Alike e' t' ∧ e' = e ∧ t' = t) →
      (ensureBook (.reliable place) locate).run t' = .ok () t₁ := by
    rintro _ _ ⟨_, _, rfl⟩
    exact run₁
  refine hensure.step hrun ?_
  refine Follows.bind ((onBook_follows al place (.add orderId side price quantity)).error ?_) hrest
  rintro fault e' ⟨hfault, hsite, hlike⟩
  exact ⟨hfault, hsite, hlike.stats.trans hstats₁, _, ⟨hcan, Or.inr rfl⟩, t₁, hlike, h₁⟩

theorem applyAdd_follows (h : Represents t m) (al : Alloc)
    (hgranted : e.canCreateOrder locate = true → Granted al e locate) (place : Placement)
    (reference : OrderId) (side : Side) (price : Price) (shares : Quantity) :
    Follows (fun e' t' => Alike e' t' ∧ e' = e ∧ t' = t)
      (applyAdd al locate reference side price shares)
      (applyAdd (.reliable place) locate reference side price shares) (fun _ => Alike)
      (Fails al t.stats (m.MayOpen locate)) := by
  unfold applyAdd
  refine Follows.get_bind ?_
  rintro _ _ ⟨hlike, rfl, rfl⟩
  rw [hlike.canCreateOrder locate] at hgranted ⊢
  refine Follows.ite Iff.rfl (fun _ => ?_) fun hcan => ?_
  · exact (reject_keeps locate).pre fun _ _ hsame => by rwa [hsame.1, hsame.2]
  · rw [Bool.not_eq_true, Bool.not_eq_false'] at hcan
    refine (addOrder_follows h ((h.canCreateOrder_iff locate).mp hcan) (hgranted hcan) place reference
      side price shares fun added => ?_).pre fun _ _ hsame => ⟨?_, hsame⟩
    · refine Follows.ite Iff.rfl (fun _ => reject_keeps locate) fun _ => finish_keeps fun e t h => ?_
      exact h.of_books rfl rfl h.limits (by rw [h.restingOrderCount]) (by rw [h.stats])
    · rwa [hsame.1, hsame.2]

theorem applyReplace_follows (h : Represents t m) (al : Alloc) (place : Placement)
    (original new : OrderId) (price : Price) (shares : Quantity) :
    Follows (fun e' t' => Alike e' t' ∧ e' = e ∧ t' = t)
      (applyReplace al locate original new price shares)
      (applyReplace (.reliable place) locate original new price shares) (fun _ => Alike)
      (Fails al t.stats (· = m)) := by
  unfold applyReplace
  refine Follows.get_bind ?_
  rintro e' t' ⟨hlike, rfl, rfl⟩
  rcases hlike.findBook locate with ⟨he, ht⟩ | ⟨b, b', he, ht, _⟩
  · rw [he, ht]
    exact (reject_keeps locate).pre fun _ _ hsame => by rwa [hsame.1, hsame.2]
  · rw [he, ht]
    have hreplace := @onBook_follows t' locate al place (.replace original new price shares)
    refine Follows.bind (hreplace.conseq ?_ (fun _ _ _ => id) ?_) fun changed => ?_
    · rintro _ _ ⟨rfl, rfl⟩
      exact ⟨hlike, rfl⟩
    · rintro fault e' ⟨hfault, hsite, hlike'⟩
      exact ⟨hfault, hsite, hlike'.stats, m, rfl, _, hlike', h⟩
    · refine Follows.ite Iff.rfl (fun _ => reject_keeps locate) fun _ => finish_keeps fun e t h => ?_
      exact h.of_books rfl rfl h.limits h.restingOrderCount (by rw [h.stats])

theorem Alike.lookup_none (h : Alike e t) (hrep : Represents t m) :
    e.books.lookup locate = none ↔ m.books.lookup locate = none := by
  have hsome := hrep.isSome_lookup locate
  rcases h.entry locate with ⟨he, ht⟩ | ⟨b, b', he, ht, _⟩
  · rw [ht] at hsome
    rw [he]
    exact iff_of_true rfl (Option.isNone_iff_eq_none.mp (Option.isSome_eq_false_iff.mp hsome.symm))
  · rw [ht] at hsome
    rw [he]
    refine iff_of_false (by simp) fun hm => ?_
    rw [hm] at hsome
    cases hsome

theorem submitLimit_follows (h : Represents t m) (al : Alloc) (place : Placement) (orderId : OrderId)
    (side : Side) (limitPrice : Price) (quantity : Quantity) (output : List Fill)
    (hgranted : quantity ≠ 0 → e.canCreateOrder locate = true → Granted al e locate) :
    Follows (fun e' t' => Alike e' t' ∧ e' = e ∧ t' = t)
      (submitLimit al locate orderId side limitPrice quantity output)
      (submitLimit (.reliable place) locate orderId side limitPrice quantity output)
      (fun _ => Alike) (Fails al t.stats
        ((EngineCall.submitLimit locate orderId side limitPrice quantity output).Leaves m)) := by
  unfold submitLimit
  refine Follows.get_bind ?_
  rintro e' t' ⟨hlike, rfl, rfl⟩
  rw [hlike.contains locate orderId, h.contains]
  refine Follows.ite Iff.rfl (fun _ => Follows.pure ?_) fun hbad => ?_
  · rintro _ _ ⟨rfl, rfl⟩
    exact hlike
  rw [not_or, Bool.not_eq_true] at hbad
  obtain ⟨t₁, run₁, h₁, hstats₁⟩ := matchOrder_ok h locate side limitPrice quantity true output
  set swept := m.swept locate side (reach true side limitPrice) quantity with hswept
  set taken := m.taken locate side (reach true side limitPrice) quantity with htaken
  have hrun : ∀ x y : MatchingEngine, x = e' ∧ y = t' →
      (matchOrder locate side limitPrice quantity true output).run y =
        .ok (matchResult quantity output.length taken, writeFills taken output) t₁ := by
    rintro _ _ ⟨_, rfl⟩
    exact run₁
  refine ((matchOrder_keeps locate side limitPrice quantity true output).pre fun _ _ hsame => ?_).step
    hrun ?_
  · rwa [hsame.1, hsame.2]
  refine Follows.ite Iff.rfl (fun _ => Follows.pure fun _ _ hR => hR.1) fun hresting => ?_
  refine Follows.get_bind ?_
  rintro e₁ _ ⟨hlike₁, rfl⟩
  rw [hlike₁.canCreateOrder locate]
  refine Follows.ite Iff.rfl (fun _ => Follows.pure ?_) fun hcan => ?_
  · rintro _ _ ⟨rfl, rfl⟩
    exact hlike₁
  rw [Bool.not_eq_true, Bool.not_eq_false', h₁.canCreateOrder_iff] at hcan
  -- the entry is new only where there was no book before the match
  have hgranted₁ : Granted al e₁ locate := by
    intro hnone
    have hm : m.books.lookup locate = none := by
      have hsome := swept_isSome m locate side (reach true side limitPrice) quantity locate
      rw [(hlike₁.lookup_none h₁).mp hnone] at hsome
      exact Option.isNone_iff_eq_none.mp (Option.isSome_eq_false_iff.mp hsome.symm)
    have hsame : swept = m := by
      rw [hswept]
      unfold ReferenceEngine.swept
      rw [hm]
    rw [hsame, ← h.canCreateOrder_iff, ← hlike.canCreateOrder] at hcan
    exact hgranted hbad.1 hcan ((hlike.lookup_none h).mpr hm)
  refine ((addOrder_follows h₁ hcan hgranted₁ place orderId side limitPrice _ fun added => ?_).pre
    fun _ _ hsame => ⟨?_, hsame⟩).error ?_
  · refine Follows.ite Iff.rfl (fun _ => Follows.pure fun _ _ => id) fun _ => finish_keeps fun e t h => ?_
    exact h.of_books rfl rfl h.limits (by rw [h.restingOrderCount]) h.stats
  · rwa [hsame.1, hsame.2]
  · rw [hstats₁]
    exact Fails.mono fun m' hm' => ⟨hbad.1, hbad.2, hresting, hm'⟩

theorem apply_follows (h : Represents t m) (al : Alloc) (place : Placement) (event : ItchEvent)
    (hgranted : (EngineCall.apply event).BookGranted al e) :
    Follows (fun e' t' => Alike e' t' ∧ e' = e ∧ t' = t) (apply al event)
      (apply (.reliable place) event) (fun _ => Alike)
      (Fails al { t.stats with messages := t.stats.messages + 1 }
        ((EngineCall.apply event).Leaves m)) := by
  unfold apply
  set e₀ : MatchingEngine := { e with stats.messages := e.stats.messages + 1 }
  set t₀ : MatchingEngine := { t with stats.messages := t.stats.messages + 1 }
  have h₀ : Represents t₀ m := ⟨h.toHolds.of_books rfl rfl, h.count⟩
  refine Follows.bind (S := fun _ e' t' => Alike e' t' ∧ e' = e₀ ∧ t' = t₀)
    (Follows.modify ?_) fun _ => ?_
  · rintro _ _ ⟨hlike, rfl, rfl⟩
    exact ⟨hlike.of_books rfl rfl hlike.limits hlike.restingOrderCount
      (by simp only [hlike.stats]), rfl, rfl⟩
  have hother : ∀ {handler : Engine ApplyResult} {E : Fault → MatchingEngine → Prop},
      Follows Alike handler handler (fun _ => Alike) E →
      Follows (fun e' t' => Alike e' t' ∧ e' = e₀ ∧ t' = t₀) handler handler (fun _ => Alike) E :=
    fun hm => hm.pre fun _ _ hR => hR.1
  cases event with
  | addOrder message => exact applyAdd_follows (e := e₀) h₀ al hgranted place _ _ _ _
  | addAttributedOrder message => exact applyAdd_follows (e := e₀) h₀ al hgranted place _ _ _ _
  | orderExecuted message =>
    exact hother (applyReduction_keeps _ _ _ place
      (.execute message.orderReference message.executedShares) _ _)
  | orderExecutedWithPrice message =>
    exact hother (applyReduction_keeps _ _ _ place
      (.execute message.orderReference message.executedShares) _ _)
  | orderCancel message =>
    exact hother (applyReduction_keeps _ _ _ place
      (.cancel message.orderReference message.canceledShares) _ _)
  | orderDelete message => exact hother (applyDelete_keeps _ _)
  | orderReplace message => exact applyReplace_follows h₀ al place _ _ _ _
  | _ => exact hother (ignore_keeps _)

/-- What two runs of a call do, under an allocator that may fail and one that does not. -/
theorem call_follows (h : Represents t m) (al : Alloc) (place : Placement) (call : EngineCall)
    (hgranted : call.BookGranted al e) :
    Follows (fun e' t' => Alike e' t' ∧ e' = e ∧ t' = t) (call.onEngine al)
      (call.onEngine (.reliable place)) (fun _ => Alike)
      (Fails al (call.counted t.stats none) (call.Leaves m)) := by
  cases call with
  | apply event =>
    exact Follows.bind (apply_follows h al place event hgranted) fun _ => Follows.pure fun _ _ => id
  | submitLimit locate orderId side limitPrice quantity output =>
    exact Follows.bind (submitLimit_follows h al place orderId side limitPrice quantity output hgranted)
      fun _ => Follows.pure fun _ _ => id
  | submitMarket locate side quantity output =>
    exact Follows.bind ((submitMarket_keeps locate side quantity output).pre fun _ _ hR => hR.1)
      fun _ => Follows.pure fun _ _ => id
  | clear =>
    refine Follows.bind (Follows.modify (S := fun _ => Alike) ?_) fun _ => Follows.pure fun _ _ => id
    rintro e' t' ⟨hlike, _, _⟩
    exact ⟨hlike.limits, rfl, rfl, fun _ => Or.inl ⟨rfl, rfl⟩⟩

theorem call_counted (h : Represents t m) (place : Placement) (call : EngineCall) :
    ∃ t', (call.onEngine (.reliable place)).run t = .ok (call.onReference m).1 t' ∧
      Represents t' (call.onReference m).2 ∧
      t'.stats = call.counted t.stats (some (call.onReference m).1) := by
  cases call with
  | apply event =>
    obtain ⟨t', run, hrep, hstats, _⟩ := apply_simulates h place event
    exact ⟨t', run_bind_ok run, hrep, hstats⟩
  | submitLimit locate orderId side limitPrice quantity output =>
    obtain ⟨t', run, hrep, hstats⟩ :=
      submitLimit_simulates h place locate orderId side limitPrice quantity output
    exact ⟨t', run_bind_ok run, hrep, hstats⟩
  | submitMarket locate side quantity output =>
    obtain ⟨t', run, hrep, hstats⟩ := submitMarket_simulates h locate side quantity output
    exact ⟨t', run_bind_ok run, hrep, hstats⟩
  | clear =>
    refine ⟨new t.limits, rfl, ?_, rfl⟩
    rw [h.limits]
    exact new_represents _

/-- **One call** either returns what the reference engine returns, or fails in an allocation. -/
theorem Mirrors.call (h : Mirrors e m) (al : Alloc) (call : EngineCall)
    (hgranted : call.BookGranted al e) :
    (∃ e', (call.onEngine al).run e = .ok (call.onReference m).1 e' ∧
      Mirrors e' (call.onReference m).2 ∧
      e'.stats = call.counted e.stats (some (call.onReference m).1)) ∨
    ∃ fault e', (call.onEngine al).run e = .error fault e' ∧
      Fails al (call.counted e.stats none) (call.Leaves m) fault e' := by
  obtain ⟨t, hlike, hrep⟩ := h
  obtain ⟨t', run', hrep', hstats⟩ := call_counted hrep .bump call
  rw [hlike.stats]
  rcases call_follows hrep al .bump call hgranted e t ⟨hlike, rfl, rfl⟩ _ t' run' with
    ⟨e', run, hlike'⟩ | hfails
  · exact Or.inl ⟨e', run, ⟨t', hlike', hrep'⟩, hlike'.stats.trans hstats⟩
  · exact Or.inr hfails

end MatchingEngine

/-! ## What a failed call amounts to -/

namespace ReferenceEngine

variable {m m' : ReferenceEngine} {locate : StockLocate}

theorem runCalls_append (calls calls' : List EngineCall) :
    (m.runCalls (calls ++ calls')).2 = ((m.runCalls calls).2.runCalls calls').2 := by
  induction calls generalizing m with
  | nil => rfl
  | cons call calls ih => exact ih

/-- An order of no shares is refused, and has its book made. -/
theorem MayOpen.reached (h : m.MayOpen locate m') : ∃ calls, (m.runCalls calls).2 = m' := by
  obtain ⟨hcan, rfl | rfl⟩ := h
  · exact ⟨[], rfl⟩
  · refine ⟨[.apply (.addOrder ⟨⟨locate, 0, 0⟩, 0, .Buy, 0, Vector.replicate 8 0, 0⟩)], ?_⟩
    show (m.add locate 0 .Buy 0 0).2 = m.opened locate
    have hrefused : ((m.book locate).add 0 .Buy 0 0).1 = false := by
      unfold ReferenceBook.add
      rw [if_pos (Or.inl rfl)]
    unfold ReferenceEngine.add
    rw [if_pos hcan, ReferenceBook.add_refused hrefused]
    rfl

/-- The trades of an order are those of one for as many shares as it trades. -/
theorem swept_reached (hwf : (m.book locate).WF) {orderId : OrderId}
    (hid : (m.book locate).contains orderId = false) (side : Side) (limitPrice : Price)
    (quantity : Quantity) : ∃ calls,
      (m.runCalls calls).2 = m.swept locate side (reach true side limitPrice) quantity := by
  set reaches := reach true side limitPrice with hreaches
  set filled : Quantity := BitVec.ofNat 32 ((m.taken locate side reaches quantity).map Prod.snd).sum
    with hfilled
  have hsum : filled.toNat = ((m.taken locate side reaches quantity).map Prod.snd).sum :=
    MatchingEngine.toNat_ofNat_of_le MatchingEngine.sum_taken_le
  have htaken : m.taken locate side reaches filled = m.taken locate side reaches quantity := by
    unfold taken at hsum ⊢
    rw [hsum]
    refine greedy_sum_greedy fun v hv hzero => ?_
    obtain ⟨price, _, hv⟩ := List.mem_flatMap.mp hv
    exact (hwf.mem_views hv).2.2.1 (BitVec.eq_of_toNat_eq hzero)
  refine ⟨[.submitLimit locate orderId side limitPrice filled []], ?_⟩
  show (m.submitLimit locate orderId side limitPrice filled []).2 = _
  unfold ReferenceEngine.submitLimit swept
  by_cases hzero : filled = 0
  · have hnone : m.taken locate side reaches quantity = [] := by
      rw [← htaken, hzero]
      exact greedy_zero _ _
    rw [if_pos (Or.inl hzero), hnone]
    cases hm : m.books.lookup locate with
    | none => rfl
    | some r => exact (setBook_same hm).symm
  · rw [if_neg (not_or.mpr ⟨hzero, by rw [hid]; exact Bool.false_ne_true⟩)]
    simp only [← hreaches, htaken]
    rw [if_pos]
    show BitVec.ofNat 32 (filled.toNat - ((m.taken locate side reaches quantity).map Prod.snd).sum) = 0
    rw [hsum, Nat.sub_self]
    rfl

end ReferenceEngine

/-- **A failed call** does what calls do that return. -/
theorem EngineCall.Leaves.reached {call : EngineCall} {m m' : ReferenceEngine}
    (hwf : ∀ locate, (m.book locate).WF) (h : call.Leaves m m') :
    ∃ calls, (m.runCalls calls).2 = m' := by
  cases call with
  | apply event =>
    cases event with
    | addOrder message => exact MayOpen.reached h
    | addAttributedOrder message => exact MayOpen.reached h
    | orderReplace message => exact ⟨[], h.symm⟩
    | _ => cases h
  | submitLimit locate orderId side limitPrice quantity output =>
    obtain ⟨_, hid, _, hopen⟩ := h
    obtain ⟨calls, hcalls⟩ := swept_reached (hwf locate) hid side limitPrice quantity
    obtain ⟨calls', hcalls'⟩ := hopen.reached
    rw [← hcalls, ← runCalls_append] at hcalls'
    exact ⟨_, hcalls'⟩
  | submitMarket locate side quantity output => cases h
  | clear => cases h

/-! ## Runs -/

/-- What a run does to the reference engine: a call returns what it returns there, or has failed in an
allocation. -/
inductive Recovers :
    ReferenceEngine → List (Alloc × EngineCall) → List (Option CallResult) → ReferenceEngine → Prop
  | nil (m : ReferenceEngine) : Recovers m [] [] m
  | returned {m m' : ReferenceEngine} {calls : List (Alloc × EngineCall)}
      {results : List (Option CallResult)} (al : Alloc) (call : EngineCall) :
      Recovers (call.onReference m).2 calls results m' →
        Recovers m ((al, call) :: calls) (some (call.onReference m).1 :: results) m'
  | failed {m m₁ m' : ReferenceEngine} {calls : List (Alloc × EngineCall)}
      {results : List (Option CallResult)} {al : Alloc} {call : EngineCall} :
      (∃ site, al.fails site = true) → call.Leaves m m₁ → Recovers m₁ calls results m' →
        Recovers m ((al, call) :: calls) (none :: results) m'

/-- The counters after a run. -/
def countedAll (stats : ReplayStats) (calls : List (Alloc × EngineCall))
    (results : List (Option CallResult)) : ReplayStats :=
  (calls.zip results).foldl (fun stats x => x.1.2.counted stats x.2) stats

namespace MatchingEngine

variable {limits : EngineLimits} {e e' f : MatchingEngine} {m m' : ReferenceEngine}

theorem Mirrors.wf (h : Mirrors e m) (locate : StockLocate) : (m.book locate).WF := by
  obtain ⟨t, _, hrep⟩ := h
  exact hrep.wf locate

theorem Mirrors.sameBooks (h : Mirrors e m) (hf : Represents f m) : SameBooks e f := by
  obtain ⟨t, hlike, hrep⟩ := h
  have hsame := hrep.sameBooks hf
  have hbook : ∀ locate, (t.findBook locate = none ∧ e.findBook locate = none) ∨
      ∃ b b', t.findBook locate = some b ∧ e.findBook locate = some b' ∧
        OrderBook.SameObservations b' b := by
    intro locate
    rcases hlike.findBook locate with ⟨he, ht⟩ | ⟨b, b', he, ht, hb⟩
    · exact Or.inl ⟨ht, he⟩
    · exact Or.inr ⟨b', b, ht, he, hb.same⟩
  constructor
  case findBook =>
    intro locate
    rw [hsame.findBook]
    rcases hbook locate with ⟨ht, he⟩ | ⟨_, _, ht, he, _⟩
    · rw [ht, he]
    · rw [ht, he]
      rfl
  case instrumentCount =>
    rw [hsame.instrumentCount]
    refine size_congr fun locate => ?_
    rcases hlike.entry locate with ⟨he, ht⟩ | ⟨_, _, he, ht, _⟩
    · rw [ht, he]
    · rw [ht, he]
      rfl
  case restingOrderCount => rw [hsame.restingOrderCount, hlike.restingOrderCount]
  case fifo =>
    intro locate side price
    rw [hsame.fifo]
    unfold fifo
    rcases hbook locate with ⟨ht, he⟩ | ⟨b, b', ht, he, hb⟩
    · rw [ht, he]
    · rw [ht, he]
      exact hb.fifo side price
  case order =>
    intro locate id
    rw [hsame.order]
    unfold order
    rcases hbook locate with ⟨ht, he⟩ | ⟨b, b', ht, he, hb⟩
    · rw [ht, he]
    · rw [ht, he]
      exact congrArg (fun v => (some v).bind fun v : Except Fault (Option OrderView) => v.toOption.join)
        (hb.order id)

/-- A run whose allocations succeed. -/
theorem Mirrors.runCalls (calls : List (Placement × EngineCall)) :
    ∀ {e m}, Mirrors e m → ∃ e', (runCalls calls).run e = .ok (m.runCalls (calls.map Prod.snd)).1 e' ∧
      Mirrors e' (m.runCalls (calls.map Prod.snd)).2 := by
  induction calls with
  | nil => exact fun h => ⟨_, rfl, h⟩
  | cons head calls ih =>
    obtain ⟨place, call⟩ := head
    intro e m h
    have hgranted : call.BookGranted (.reliable place) e := by
      have hnew : ∀ locate, Granted (.reliable place) e locate := fun _ _ => Or.inr ⟨rfl, rfl⟩
      cases call with
      | apply event =>
        cases event with
        | addOrder message => exact fun _ => hnew _
        | addAttributedOrder message => exact fun _ => hnew _
        | _ => trivial
      | submitLimit locate orderId side limitPrice quantity output => exact fun _ _ => hnew _
      | submitMarket locate side quantity output => trivial
      | clear => trivial
    rcases h.call (.reliable place) call hgranted with ⟨e₁, run₁, h₁, _⟩ | ⟨_, _, _, _, ⟨_, hsite⟩, _⟩
    · obtain ⟨e₂, run₂, h₂⟩ := ih h₁
      refine ⟨e₂, ?_, h₂⟩
      unfold MatchingEngine.runCalls
      rw [run_bind_ok run₁, run_bind_ok run₂]
      rfl
    · cases hsite

theorem Mirrors.indistinguishable (h : Mirrors e m) (hf : Represents f m) : Indistinguishable e f := by
  intro calls calls' hcalls
  obtain ⟨e', run, he'⟩ := Mirrors.runCalls calls h
  obtain ⟨f', run', hf'⟩ := runCalls_keeps (P := fun _ e m => Represents e m) (p := fun _ => True)
    (fun place call _ h => call_simulates h place call) calls' (fun _ _ => trivial) [] hf
  rw [hcalls] at run' hf'
  exact ⟨_, e', f', run, run', he'.sameBooks hf'⟩

/-- **A run of attempts**, by induction on it. The calls that have failed can be replaced. -/
theorem Mirrors.attemptCalls (calls : List (Alloc × EngineCall)) :
    ∀ {e m}, Mirrors e m → GrantedRun e calls → ∃ results e' m',
      (attemptCalls calls).run e = .ok results e' ∧ Recovers m calls results m' ∧
        e'.stats = countedAll e.stats calls results ∧ Mirrors e' m' ∧
        ∃ replaced, (m.runCalls replaced).2 = m' := by
  induction calls with
  | nil => exact fun h _ => ⟨_, _, _, rfl, .nil _, rfl, h, [], rfl⟩
  | cons head calls ih =>
    obtain ⟨al, call⟩ := head
    intro e m h hgranted
    rcases h.call al call hgranted.1 with ⟨e₁, run₁, h₁, hstats₁⟩ |
      ⟨_, e₁, run₁, rfl, hsite, hstats₁, m₁, hleaves, h₁⟩
    · have hattempt := attempt_ok run₁
      obtain ⟨results, e₂, m₂, run₂, hrecovers, hstats₂, h₂, replaced, hreplaced⟩ :=
        ih h₁ (hgranted.2 _ _ hattempt)
      refine ⟨_, e₂, m₂, ?_, .returned al call hrecovers, ?_, h₂, call :: replaced, hreplaced⟩
      · unfold MatchingEngine.attemptCalls
        rw [run_bind_ok hattempt, run_bind_ok run₂]
        rfl
      · rw [hstats₂, hstats₁]
        rfl
    · have hattempt := attempt_badAlloc run₁
      obtain ⟨results, e₂, m₂, run₂, hrecovers, hstats₂, h₂, replaced, hreplaced⟩ :=
        ih h₁ (hgranted.2 _ _ hattempt)
      obtain ⟨replaced₁, hreplaced₁⟩ := hleaves.reached h.wf
      refine ⟨_, e₂, m₂, ?_, .failed hsite hleaves hrecovers, ?_, h₂, replaced₁ ++ replaced, ?_⟩
      · unfold MatchingEngine.attemptCalls
        rw [run_bind_ok hattempt, run_bind_ok run₂]
        rfl
      · rw [hstats₂, hstats₁]
        rfl
      · rw [runCalls_append, hreplaced₁, hreplaced]

theorem new_mirrors (limits : EngineLimits) : Mirrors (new limits) (.new limits) :=
  ⟨_, ⟨rfl, rfl, rfl, fun _ => Or.inl ⟨rfl, rfl⟩⟩, new_represents limits⟩

/-- **Recovery.** In any run in which memory for a new book is granted, a call returns what the
reference engine returns or fails in an allocation and leaves what it had traded, perhaps with a new
empty book; the counters are those of the calls that returned, and of the messages alone of those that
failed; and no calls tell the engine from one that a run without failures reaches. -/
theorem failures_leave_no_trace (limits : EngineLimits) (calls : List (Alloc × EngineCall))
    (hgranted : GrantedRun (new limits) calls) :
    ∃ results e m, (attemptCalls calls).run (new limits) = .ok results e ∧
      Recovers (.new limits) calls results m ∧ e.stats = countedAll .zero calls results ∧
      ∃ f, Reachable limits f ∧ Represents f m ∧ Indistinguishable e f := by
  obtain ⟨results, e, m, run, hrecovers, hstats, h, replaced, rfl⟩ :=
    (new_mirrors limits).attemptCalls calls hgranted
  obtain ⟨f, hreach, hf⟩ := exists_reachable limits replaced
  exact ⟨results, e, _, run, hrecovers, hstats, f, hreach, hf, h.indistinguishable hf⟩

/-- An order trades with an ask, and what is left of it cannot rest. -/
theorem failures_leave_no_trace_remainder :
    let calls : List (Alloc × EngineCall) := [(.reliable .bump, .submitLimit 1 5 .Sell 100 5 []),
      (failing .priceLevel, .submitLimit 1 7 .Buy 100 8 [])]
    ∃ results e f, (attemptCalls calls).run (new {}) = .ok results e ∧
      results.map Option.isSome = [true, false] ∧ Reachable {} f ∧ Indistinguishable e f := by
  intro calls
  have hgranted : GrantedRun (new {}) calls :=
    ⟨fun _ _ _ => Or.inr ⟨rfl, rfl⟩, fun _ _ _ => ⟨fun _ _ _ => Or.inr ⟨rfl, rfl⟩,
      fun _ _ _ => trivial⟩⟩
  obtain ⟨results, e, m, run, _, _, f, hreach, _, hsame⟩ := failures_leave_no_trace {} calls hgranted
  have hresults : results.map Option.isSome = [true, false] :=
    of_evaluate run (fun results _ => results.map Option.isSome) (by decide +kernel)
  exact ⟨results, e, f, run, hresults, hreach, hsame⟩

end MatchingEngine

end Lob
