import Lob.Basis.Components
import Lob.Engine.Lifecycle

/-!
# Instruments do not interfere

With the default limits the caps admit every order, as long as the counter of resting orders is not at
its maximum. Then the locates are separate components of the engine: what a call returns, and what it
makes of its book, does not depend on the calls to other locates.
-/

namespace Lob

open Basis ReferenceEngine

/-! ## The reference engine -/

namespace ReferenceEngine

variable {m m' : ReferenceEngine} {locate : StockLocate}

/-- The default limits, and room for one more order. -/
structure Roomy (m : ReferenceEngine) : Prop where
  limits : m.limits = {}
  restingOrders : m.restingOrders < 2 ^ 64 - 1

/-- There are no more instruments than locates. -/
theorem size_books_le (m : ReferenceEngine) : size m.books ≤ 2 ^ 16 := by
  unfold size
  calc m.books.keys.card ≤ (Finset.range (2 ^ 16)).card := by
        refine Finset.card_le_card_of_injOn BitVec.toNat (fun locate _ => ?_) fun a _ b _ h => ?_
        · exact Finset.mem_coe.mpr (Finset.mem_range.mpr locate.isLt)
        · exact BitVec.eq_of_toNat_eq h
    _ = 2 ^ 16 := Finset.card_range _

theorem Roomy.canCreate (h : Roomy m) (locate : StockLocate) : m.CanCreateOrder locate := by
  unfold CanCreateOrder
  have hsize := size_books_le m
  rw [h.limits]
  refine ⟨h.restingOrders, Or.inr ?_⟩
  show size m.books < 2 ^ 64 - 1
  omega

theorem restingOrders_swept_le (side : Side) (reaches : Price → Bool) (quantity : Quantity) :
    (m.swept locate side reaches quantity).restingOrders ≤ m.restingOrders := by
  unfold swept
  cases hm : m.books.lookup locate with
  | none => exact le_rfl
  | some r =>
    have hsum := restingOrders_setBook hm (r.take (m.taken locate side reaches quantity))
    have hle := ReferenceBook.take_orderCount_le (r := r) (m.taken locate side reaches quantity)
    simp only
    omega

theorem Roomy.swept (h : Roomy m) (side : Side) (reaches : Price → Bool) (quantity : Quantity) :
    Roomy (m.swept locate side reaches quantity) where
  limits := (swept_limits m locate side reaches quantity).trans h.limits
  restingOrders := (restingOrders_swept_le side reaches quantity).trans_lt h.restingOrders

/-! ## One call -/

/-- The engines have the same book, or none, at `locate`. -/
def SameAt (locate : StockLocate) (m m' : ReferenceEngine) : Prop :=
  m'.books.lookup locate = m.books.lookup locate

theorem SameAt.book (h : SameAt locate m m') : m'.book locate = m.book locate := by
  unfold ReferenceEngine.book
  rw [h]

theorem SameAt.setBook (r : ReferenceBook) :
    SameAt locate (m.setBook locate r) (m'.setBook locate r) := by
  unfold SameAt
  rw [setBook_lookup, setBook_lookup, if_pos rfl, if_pos rfl]

theorem SameAt.taken (h : SameAt locate m m') (side : Side) (reaches : Price → Bool)
    (quantity : Quantity) :
    m'.taken locate side reaches quantity = m.taken locate side reaches quantity := by
  unfold ReferenceEngine.taken
  rw [h.book]

theorem SameAt.swept (h : SameAt locate m m') (side : Side) (reaches : Price → Bool)
    (quantity : Quantity) :
    SameAt locate (m.swept locate side reaches quantity) (m'.swept locate side reaches quantity) := by
  unfold ReferenceEngine.swept
  rw [h.taken, h]
  cases m.books.lookup locate with
  | none => exact h
  | some r => exact SameAt.setBook _

/-- The calls return the same and leave the same at `locate`. -/
def SameOutcome {α : Type} (locate : StockLocate) (out out' : α × ReferenceEngine) : Prop :=
  out'.1 = out.1 ∧ SameAt locate out.2 out'.2

theorem SameAt.add (h : SameAt locate m m') (hm : Roomy m) (hm' : Roomy m') (reference : OrderId)
    (side : Side) (price : Price) (shares : Quantity) :
    SameOutcome locate (m.add locate reference side price shares)
      (m'.add locate reference side price shares) := by
  unfold ReferenceEngine.add
  rw [if_pos (hm.canCreate locate), if_pos (hm'.canCreate locate), h.book]
  exact ⟨rfl, SameAt.setBook _⟩

theorem SameAt.update (h : SameAt locate m m') (action : ApplyAction)
    (operation : ReferenceBook → Bool × ReferenceBook) :
    SameOutcome locate (m.update locate action operation) (m'.update locate action operation) := by
  unfold ReferenceEngine.update
  rw [h]
  cases m.books.lookup locate with
  | none => exact ⟨rfl, h⟩
  | some r =>
    simp only
    by_cases hop : (operation r).1 = true
    · rw [if_pos hop, if_pos hop]
      exact ⟨rfl, SameAt.setBook _⟩
    · rw [if_neg hop, if_neg hop]
      exact ⟨rfl, h⟩

theorem SameAt.submitMarket (h : SameAt locate m m') (side : Side) (quantity : Quantity)
    (output : List Fill) :
    SameOutcome locate (m.submitMarket locate side quantity output)
      (m'.submitMarket locate side quantity output) := by
  unfold ReferenceEngine.submitMarket
  simp only [h.taken]
  by_cases hzero : quantity = 0
  · rw [if_pos hzero, if_pos hzero]
    exact ⟨rfl, h⟩
  · rw [if_neg hzero, if_neg hzero]
    exact ⟨rfl, h.swept _ _ _⟩

theorem SameAt.submitLimit (h : SameAt locate m m') (hm : Roomy m) (hm' : Roomy m')
    (orderId : OrderId) (side : Side) (limitPrice : Price) (quantity : Quantity)
    (output : List Fill) :
    SameOutcome locate (m.submitLimit locate orderId side limitPrice quantity output)
      (m'.submitLimit locate orderId side limitPrice quantity output) := by
  unfold ReferenceEngine.submitLimit
  have hswept := h.swept side (reach true side limitPrice) quantity
  simp only [h.taken, h.book]
  by_cases hbad : quantity = 0 ∨ (m.book locate).contains orderId = true
  · rw [if_pos hbad, if_pos hbad]
    exact ⟨rfl, h⟩
  rw [if_neg hbad, if_neg hbad]
  by_cases hdone : (matchResult quantity output.length
      (m.taken locate side (reach true side limitPrice) quantity)).resting = 0
  · rw [if_pos hdone, if_pos hdone]
    exact ⟨rfl, hswept⟩
  · rw [if_neg hdone, if_neg hdone, if_pos ((hm.swept _ _ _).canCreate locate),
      if_pos ((hm'.swept _ _ _).canCreate locate), hswept.book]
    exact ⟨rfl, SameAt.setBook _⟩

/-- **One call** does the same to the same book. -/
theorem SameAt.call (h : SameAt locate m m') (hm : Roomy m) (hm' : Roomy m') {call : EngineCall}
    (hcall : call.locate = some locate) :
    SameOutcome locate (call.onReference m) (call.onReference m') := by
  cases call with
  | submitLimit locate orderId side limitPrice quantity output =>
    cases hcall
    obtain ⟨hresult, hsame⟩ := h.submitLimit hm hm' orderId side limitPrice quantity output
    exact ⟨congrArg (fun reported : MatchResult × List Fill => CallResult.matched reported.1 reported.2)
      hresult, hsame⟩
  | submitMarket locate side quantity output =>
    cases hcall
    obtain ⟨hresult, hsame⟩ := h.submitMarket side quantity output
    exact ⟨congrArg (fun reported : MatchResult × List Fill => CallResult.matched reported.1 reported.2)
      hresult, hsame⟩
  | clear => cases hcall
  | apply event =>
    have hevent : SameOutcome event.locate (m.apply event) (m'.apply event) := by
      cases hcall
      cases event with
      | addOrder message => exact h.add hm hm' _ _ _ _
      | addAttributedOrder message => exact h.add hm hm' _ _ _ _
      | orderExecuted message => exact h.update _ _
      | orderExecutedWithPrice message => exact h.update _ _
      | orderCancel message => exact h.update _ _
      | orderDelete message => exact h.update _ _
      | orderReplace message => exact h.update _ _
      | _ => exact ⟨rfl, h⟩
    cases hcall
    exact ⟨congrArg CallResult.applied hevent.1, hevent.2⟩

/-! ## Runs -/

section Keys

variable {κ τ : Type}

/-- The engine as a system of components, by a key of its calls and a part of its books. -/
def byKey (key : EngineCall → Option κ) (part : κ → ReferenceEngine → τ) :
    Components ReferenceEngine EngineCall CallResult κ τ where
  step m call := call.onReference m
  key := key
  part := part

variable (key : EngineCall → Option κ) (part : κ → ReferenceEngine → τ)

theorem byKey_run (m : ReferenceEngine) (calls : List EngineCall) :
    (byKey key part).run m calls = (calls.zip (m.runCalls calls).1, (m.runCalls calls).2) := by
  induction calls generalizing m with
  | nil => rfl
  | cons call calls ih =>
    show ((_, _) :: ((byKey key part).run _ calls).1, ((byKey key part).run _ calls).2) = _
    rw [ih]
    rfl

/-- The results of a run, from what the components returned. -/
theorem map_byKey_run (m : ReferenceEngine) (calls : List EngineCall) :
    ((byKey key part).run m calls).1.map Prod.snd = (m.runCalls calls).1 := by
  rw [byKey_run]
  exact List.map_snd_zip (le_of_eq (length_runCalls m calls))

end Keys

/-- The locates as components. -/
abbrev components : Components ReferenceEngine EngineCall CallResult StockLocate
    (Option ReferenceBook) :=
  byKey EngineCall.locate fun locate m => m.books.lookup locate

/-- Books at one locate only are no more than there are. -/
theorem restingOrders_le {m m' : ReferenceEngine} (h : SameAt locate m m')
    (hothers : ∀ locate', locate' ≠ locate → m'.books.lookup locate' = none) :
    m'.restingOrders ≤ m.restingOrders := by
  have hone : m'.restingOrders = (m'.book locate).orderCount := by
    refine (total_of_only hothers).trans ?_
    unfold ReferenceEngine.book
    cases m'.books.lookup locate <;> rfl
  rw [hone, h.book]
  cases hm : m.books.lookup locate with
  | none =>
    rw [book_of_lookup_none hm]
    exact Nat.zero_le _
  | some r =>
    rw [book_of_lookup hm]
    exact orderCount_le hm

theorem components_separate : components.Separate (fun m => m.limits = {}) Roomy (.new {}) where
  start := rfl
  keeps hinv hcall := (call_elsewhere hcall).limits.trans hinv
  good h hinv hpart hothers :=
    ⟨hinv, (restingOrders_le hpart hothers).trans_lt h.restingOrders⟩
  frame hcall hne := (call_elsewhere hcall).lookup _ hne
  own hm hm' hcall hpart := SameAt.call hpart hm hm' hcall

/-! ## At most one order a call -/

theorem restingOrders_add_le (reference : OrderId) (side : Side) (price : Price) (shares : Quantity) :
    (m.add locate reference side price shares).2.restingOrders ≤ m.restingOrders + 1 := by
  unfold ReferenceEngine.add
  by_cases hcan : m.CanCreateOrder locate
  · rw [if_pos hcan]
    have hsum := restingOrders_setBook_book (m := m) locate
      ((m.book locate).add reference side price shares).2
    have hle := ReferenceBook.add_orderCount_le (r := m.book locate) reference side price shares
    show (m.setBook locate _).restingOrders ≤ _
    omega
  · rw [if_neg hcan]
    exact Nat.le_succ _

theorem restingOrders_update_le (action : ApplyAction)
    {operation : ReferenceBook → Bool × ReferenceBook}
    (hop : ∀ r, (operation r).1 = true → (operation r).2.orderCount ≤ r.orderCount) :
    (m.update locate action operation).2.restingOrders ≤ m.restingOrders := by
  unfold ReferenceEngine.update
  cases hm : m.books.lookup locate with
  | none => exact le_rfl
  | some r =>
    simp only
    split_ifs with hok
    · have hsum := restingOrders_setBook hm (operation r).2
      have hle := hop r hok
      show (m.setBook locate _).restingOrders ≤ _
      omega
    · exact le_rfl

theorem restingOrders_submitLimit_le (orderId : OrderId) (side : Side) (limitPrice : Price)
    (quantity : Quantity) (output : List Fill) :
    (m.submitLimit locate orderId side limitPrice quantity output).2.restingOrders ≤
      m.restingOrders + 1 := by
  have hcases := submitLimit_cases m locate orderId side limitPrice quantity output
  have hswept : (m.swept locate side (reach true side limitPrice) quantity).restingOrders ≤
      m.restingOrders := restingOrders_swept_le _ _ _
  set m' := m.swept locate side (reach true side limitPrice) quantity
  generalize m.submitLimit locate orderId side limitPrice quantity output = out at hcases ⊢
  obtain ⟨⟨result, output'⟩, m''⟩ := out
  simp only at hcases ⊢
  cases hcases with
  | refused => exact Nat.le_succ _
  | filled h => exact hswept.trans (Nat.le_succ _)
  | capped h hcan => exact hswept.trans (Nat.le_succ _)
  | rests h hcan hok =>
    have hsum := restingOrders_setBook_book (m := m') locate
      ((m'.book locate).add orderId side limitPrice
        (matchResult quantity output.length
          (m.taken locate side (reach true side limitPrice) quantity)).resting).2
    have hcount := ReferenceBook.add_orderCount hok
    omega

/-- **A call** adds at most one order. -/
theorem restingOrders_call_le {call : EngineCall} (hcall : call ≠ .clear) :
    (call.onReference m).2.restingOrders ≤ m.restingOrders + 1 := by
  have hreduce : ∀ {locate action}
      (operation : ReferenceBook → Bool × ReferenceBook),
      (∀ r, (operation r).1 = true → (operation r).2.orderCount ≤ r.orderCount) →
      (m.update locate action operation).2.restingOrders ≤ m.restingOrders + 1 :=
    fun operation hop => (restingOrders_update_le _ hop).trans (Nat.le_succ _)
  cases call with
  | clear => exact absurd rfl hcall
  | submitLimit locate orderId side limitPrice quantity output =>
    exact restingOrders_submitLimit_le _ _ _ _ _
  | submitMarket locate side quantity output =>
    show (m.submitMarket locate side quantity output).2.restingOrders ≤ _
    unfold ReferenceEngine.submitMarket
    split_ifs
    · exact Nat.le_succ _
    · exact (restingOrders_swept_le _ _ _).trans (Nat.le_succ _)
  | apply event =>
    cases event with
    | addOrder message => exact restingOrders_add_le _ _ _ _
    | addAttributedOrder message => exact restingOrders_add_le _ _ _ _
    | orderExecuted message => exact hreduce _ fun r _ => ReferenceBook.cancel_orderCount_le _ _
    | orderExecutedWithPrice message =>
      exact hreduce _ fun r _ => ReferenceBook.cancel_orderCount_le _ _
    | orderCancel message => exact hreduce _ fun r _ => ReferenceBook.cancel_orderCount_le _ _
    | orderDelete message =>
      refine hreduce _ fun r hok => ?_
      have := ReferenceBook.erase_orderCount hok
      omega
    | orderReplace message =>
      exact hreduce _ fun r hok => le_of_eq (ReferenceBook.replace_orderCount hok)
    | _ => exact Nat.le_succ _

theorem restingOrders_runCalls_le {calls : List EngineCall} (hcalls : ∀ call ∈ calls, call ≠ .clear)
    (m : ReferenceEngine) : (m.runCalls calls).2.restingOrders ≤ m.restingOrders + calls.length := by
  induction calls generalizing m with
  | nil => exact le_rfl
  | cons call calls ih =>
    have hhead := restingOrders_call_le (m := m) (hcalls call List.mem_cons_self)
    have hrest := ih (fun c hc => hcalls c (List.mem_cons_of_mem _ hc)) (call.onReference m).2
    show ((call.onReference m).2.runCalls calls).2.restingOrders ≤ _
    rw [List.length_cons]
    omega

end ReferenceEngine

/-! ## The engine -/

/-- Counters of the same outcomes are the same. -/
theorem Counted.unique {results results' : List CallResult} {stats stats' : ReplayStats}
    (h : Counted results stats) (h' : Counted results' stats') (hperm : results.Perm results') :
    stats = stats' := by
  have hmessages : stats.messages = stats'.messages := by
    rw [h.messages, h'.messages, hperm.countP_eq]
  have hcounter : ∀ action, stats.counter action = stats'.counter action := by
    intro action
    rw [h.counter, h'.counter]
    unfold outcomes
    rw [hperm.countP_eq]
  cases stats
  cases stats'
  congr
  · exact hcounter .Ignored
  · exact hcounter .Added
  · exact hcounter .Executed
  · exact hcounter .Cancelled
  · exact hcounter .Deleted
  · exact hcounter .Replaced
  · exact hcounter .Rejected

namespace MatchingEngine

variable {e e' : MatchingEngine} {m m' : ReferenceEngine} {locate : StockLocate}
  {calls calls' : List (Placement × EngineCall)}

/-- The calls addressed to a locate. -/
def callsAt (locate : StockLocate) (calls : List (Placement × EngineCall)) :
    List (Placement × EngineCall) :=
  calls.filter fun call => call.2.locate = some locate

/-- The results of the calls addressed to a locate. -/
def resultsAt (locate : StockLocate) (calls : List (Placement × EngineCall))
    (results : List CallResult) : List CallResult :=
  ((calls.zip results).filter fun x => x.1.2.locate = some locate).map Prod.snd

/-- With the default limits, the run does without `clear` and never has `2 ^ 64 - 1` orders rest. -/
structure FewOrders (calls : List (Placement × EngineCall)) : Prop where
  noClear : ∀ call ∈ calls, call.2 ≠ .clear
  few : ∀ n results e, (runCalls (calls.take n)).run (new {}) = .ok results e →
    total ordersOf e.books < 2 ^ 64 - 1

/-- A run of fewer calls. -/
theorem fewOrders_of_length (hcalls : ∀ call ∈ calls, call.2 ≠ .clear)
    (hlength : calls.length < 2 ^ 64 - 1) : FewOrders calls := by
  refine ⟨hcalls, fun n results e run => ?_⟩
  obtain ⟨e', run', h, _⟩ := runCalls_new {} (calls.take n)
  rw [run] at run'
  cases run'
  rw [h.total_orders]
  have hnone : (ReferenceEngine.new {}).restingOrders = 0 := rfl
  have htaken : ∀ call ∈ (calls.take n).map Prod.snd, call ≠ .clear := by
    intro call hcall
    obtain ⟨c, hc, rfl⟩ := List.mem_map.mp hcall
    exact hcalls c (List.mem_of_mem_take hc)
  have hle := restingOrders_runCalls_le htaken (.new {})
  have htake := List.length_take_le' n calls
  rw [List.length_map, hnone] at hle
  omega

theorem FewOrders.roomy {κ τ : Type} {key : EngineCall → Option κ} {part : κ → ReferenceEngine → τ}
    (h : FewOrders calls) (n : ℕ) :
    Roomy ((byKey key part).run (.new {}) ((calls.map Prod.snd).take n)).2 := by
  obtain ⟨e, run, hrep, hb⟩ := runCalls_new {} (calls.take n)
  have hfew := h.few n _ e run
  rw [byKey_run, ← List.map_take]
  rw [hrep.total_orders] at hfew
  exact ⟨hb.sameLimits, hfew⟩

theorem FewOrders.locates (h : FewOrders calls) :
    ∀ call ∈ calls.map Prod.snd, (components.key call).isSome := by
  intro call hcall
  obtain ⟨c, hc, rfl⟩ := List.mem_map.mp hcall
  have hne := h.noClear c hc
  show c.2.locate.isSome
  cases hcall : c.2 with
  | clear => exact absurd hcall hne
  | _ => rfl

theorem map_callsAt (locate : StockLocate) (calls : List (Placement × EngineCall)) :
    (callsAt locate calls).map Prod.snd = components.only locate (calls.map Prod.snd) := by
  unfold callsAt Components.only
  rw [List.filter_map]
  rfl

theorem map_onlyRun (locate : StockLocate) (calls : List (Placement × EngineCall))
    (results : List CallResult) :
    (components.onlyRun locate ((calls.map Prod.snd).zip results)).map Prod.snd =
      resultsAt locate calls results := by
  unfold resultsAt Components.onlyRun
  rw [List.zip_map_left, List.filter_map, List.map_map]
  rfl

/-- The same reference book is the same book. -/
theorem Holds.sameBook (h : Holds e m) (h' : Holds e' m') (hsame : SameAt locate m m') :
    Option.Rel OrderBook.SameObservations (e.findBook locate) (e'.findBook locate) := by
  cases hm : m.books.lookup locate with
  | none =>
    rw [h.findBook_none hm, h'.findBook_none (hsame.trans hm)]
    exact .none
  | some r =>
    obtain ⟨b, _, hfind, hrep, _⟩ := h.findBook_some hm
    obtain ⟨b', _, hfind', hrep', _⟩ := h'.findBook_some (hsame.trans hm)
    rw [hfind, hfind']
    exact .some (hrep.observes.same hrep'.observes)

/-- **Instruments do not interfere.** With the default limits, and fewer than `2 ^ 64 - 1` orders
resting at a time, the calls to a locate return what they return in a run without the others, and make
the same book; so runs with the same calls to every locate end with the same books, count of resting
orders, number of instruments and counters. -/
theorem instruments_do_not_interfere (calls : List (Placement × EngineCall)) (h : FewOrders calls) :
    ∃ results e, (runCalls calls).run (new {}) = .ok results e ∧
      (∀ locate, ∃ e',
        (runCalls (callsAt locate calls)).run (new {}) = .ok (resultsAt locate calls results) e' ∧
          Option.Rel OrderBook.SameObservations (e.findBook locate) (e'.findBook locate)) ∧
      ∀ calls', FewOrders calls' →
        (∀ locate, (callsAt locate calls).map Prod.snd = (callsAt locate calls').map Prod.snd) →
        ∃ results' e', (runCalls calls').run (new {}) = .ok results' e' ∧
          (∀ locate,
            Option.Rel OrderBook.SameObservations (e.findBook locate) (e'.findBook locate)) ∧
          e'.restingOrderCount = e.restingOrderCount ∧ e'.instrumentCount = e.instrumentCount ∧
          e'.stats = e.stats := by
  obtain ⟨e, run, hrep, hcounted⟩ :=
    runCalls_counted calls h.noClear (new_represents {}) counted_nil
  refine ⟨_, e, run, fun locate => ?_, fun calls' h' hsame => ?_⟩
  · obtain ⟨e', run', hrep', _⟩ := runCalls_new {} (callsAt locate calls)
    obtain ⟨hresults, hpart⟩ := components_separate.run_only (k := locate) _ h.locates h.roomy
      components_separate.start rfl fun _ _ => rfl
    rw [map_callsAt] at run' hrep'
    refine ⟨e', ?_, hrep.sameBook hrep'.toHolds ?_⟩
    · rw [run', ← map_onlyRun, ← map_byKey_run, hresults, byKey_run]
    · rw [byKey_run, byKey_run] at hpart
      exact hpart
  · obtain ⟨e', run', hrep', hcounted'⟩ :=
      runCalls_counted calls' h'.noClear (new_represents {}) counted_nil
    obtain ⟨hperm, hparts⟩ := components_separate.run_perm h.locates h'.locates h.roomy h'.roomy
      fun locate => by rw [← map_callsAt, ← map_callsAt, hsame]
    have hresults := hperm.map Prod.snd
    rw [map_byKey_run, map_byKey_run] at hresults
    simp only [byKey_run] at hparts
    refine ⟨_, e', run', fun locate => hrep.sameBook hrep'.toHolds (hparts locate).symm, ?_, ?_,
      (hcounted.unique hcounted' hresults).symm⟩
    · apply BitVec.eq_of_toNat_eq
      rw [hrep.count, hrep'.count]
      exact total_congr fun locate => congrArg _ (hparts locate).symm
    · rw [hrep.instrumentCount, hrep'.instrumentCount]
      exact size_congr fun locate => congrArg _ (hparts locate).symm

/-- Orders with one id at two locates, in either order. -/
theorem instruments_do_not_interfere_two :
    let first : Placement × EngineCall := (.bump, .submitLimit 1 7 .Buy 100 5 [])
    let second : Placement × EngineCall := (.bump, .submitLimit 2 7 .Sell 90 5 [])
    ∃ results e, (runCalls [first, second]).run (new {}) = .ok results e ∧
      ∃ results' e', (runCalls [second, first]).run (new {}) = .ok results' e' ∧
        e'.restingOrderCount = e.restingOrderCount := by
  intro first second
  obtain ⟨results, e, run, _, hpair⟩ := instruments_do_not_interfere [first, second]
    (fewOrders_of_length (by simp [first, second]) (by decide))
  obtain ⟨results', e', run', _, hcount, _⟩ := hpair [second, first]
    (fewOrders_of_length (by simp [first, second]) (by decide)) fun locate => by
      by_cases h1 : locate = 1
      · subst h1; rfl
      · by_cases h2 : locate = 2
        · subst h2; rfl
        · have h1' : ¬1#16 = locate := fun e => h1 e.symm
          have h2' : ¬2#16 = locate := fun e => h2 e.symm
          simp [callsAt, EngineCall.locate, first, second, h1', h2']
  exact ⟨results, e, run, results', e', run', hcount⟩

end MatchingEngine

end Lob
