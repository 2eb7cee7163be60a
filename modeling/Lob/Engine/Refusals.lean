import Lob.Engine.Runs

/-!
# Refused events

An event that does not change a book leaves the engine as it is, its counters apart, with one
exception: an order of no shares for a locate without a book makes the book before the book refuses
the order. Without that exception, refused and ignored events can be dropped from a replay.
-/

namespace Lob

open Basis ReferenceEngine

namespace MatchingEngine

/-- An order of no shares makes the book of its locate. -/
def MakesEmptyBook (e : MatchingEngine) (locate : StockLocate) (shares : Quantity) : Prop :=
  shares = 0 ∧ e.findBook locate = none ∧ e.canCreateOrder locate = true

/-- The refused events that leave something behind. -/
def LeavesEmptyBook (e : MatchingEngine) (event : ItchEvent) : Prop :=
  match event with
  | .addOrder message => e.MakesEmptyBook message.header.stockLocate message.shares
  | .addAttributedOrder message => e.MakesEmptyBook message.header.stockLocate message.shares
  | _ => False

/-- The engines show the same, their counters of messages apart. -/
structure SameBooks (e e' : MatchingEngine) : Prop where
  findBook : ∀ locate, (e'.findBook locate).isSome = (e.findBook locate).isSome
  instrumentCount : e'.instrumentCount = e.instrumentCount
  restingOrderCount : e'.restingOrderCount = e.restingOrderCount
  fifo : ∀ locate side price, e'.fifo locate side price = e.fifo locate side price
  order : ∀ locate id, e'.order locate id = e.order locate id

variable {limits : EngineLimits} {e e' : MatchingEngine} {m m' : ReferenceEngine}
  {locate : StockLocate}

theorem Represents.sameBooks (h : Represents e m) (h' : Represents e' m) : SameBooks e e' where
  findBook locate := by rw [h.isSome_findBook, h'.isSome_findBook]
  instrumentCount := by rw [h.instrumentCount, h'.instrumentCount]
  restingOrderCount := BitVec.eq_of_toNat_eq (by rw [h.count, h'.count])
  fifo locate side price := by rw [h.fifo_eq, h'.fifo_eq]
  order locate id := by rw [h.order_eq, h'.order_eq]

/-! ## One event -/

theorem add_refused (h : Represents e m) (reference : OrderId) (side : Side) (price : Price)
    (shares : Quantity) (hno : (m.add locate reference side price shares).1.changedBook = false) :
    (e.MakesEmptyBook locate shares ∧ m.books.lookup locate = none ∧
        (m.add locate reference side price shares).2 = m.setBook locate .empty) ∨
      ¬e.MakesEmptyBook locate shares ∧ (m.add locate reference side price shares).2 = m := by
  unfold ReferenceEngine.add at hno ⊢
  by_cases hcan : m.CanCreateOrder locate
  swap
  · rw [if_neg hcan]
    rw [← h.canCreateOrder_iff] at hcan
    exact Or.inr ⟨fun hm => hcan hm.2.2, rfl⟩
  rw [if_pos hcan] at hno ⊢
  have hadd : ((m.book locate).add reference side price shares).1 = false := by
    by_contra htrue
    rw [Bool.not_eq_false] at htrue
    simp only [htrue, if_true] at hno
    cases hno
  rw [ReferenceBook.add_refused hadd]
  cases hm : m.books.lookup locate with
  | none =>
    -- a new book refuses only an order of no shares
    rw [book_of_lookup_none hm] at hadd ⊢
    have hzero : shares = 0 := by
      unfold ReferenceBook.add at hadd
      split_ifs at hadd with hbad
      exact hbad.resolve_right fun hc => by cases hc
    exact Or.inl ⟨⟨hzero, h.findBook_none hm, (h.canCreateOrder_iff locate).mpr hcan⟩, rfl, rfl⟩
  | some r =>
    obtain ⟨b, _, hfind, _⟩ := h.findBook_some hm
    refine Or.inr ⟨fun hmakes => ?_, ?_⟩
    · rw [hmakes.2.1] at hfind
      cases hfind
    · show m.setBook locate (m.book locate) = m
      rw [book_of_lookup hm, setBook_same hm]

theorem update_refused {action : ApplyAction} {operation : ReferenceBook → Bool × ReferenceBook}
    (hno : (m.update locate action operation).1.changedBook = false) :
    (m.update locate action operation).2 = m := by
  unfold ReferenceEngine.update at hno ⊢
  cases hm : m.books.lookup locate with
  | none => rfl
  | some r =>
    rw [hm] at hno
    simp only at hno ⊢
    by_cases hop : (operation r).1 = true
    · rw [if_pos hop] at hno
      cases hno
    · rw [if_neg hop]

/-- A refused event leaves the reference engine alone, or makes an empty book. -/
theorem apply_refused (h : Represents e m) (event : ItchEvent)
    (hno : (m.apply event).1.changedBook = false) :
    (e.LeavesEmptyBook event ∧ ∃ locate, m.books.lookup locate = none ∧
        (m.apply event).2 = m.setBook locate .empty) ∨
      ¬e.LeavesEmptyBook event ∧ (m.apply event).2 = m := by
  cases event with
  | addOrder message =>
    rcases add_refused h _ _ _ _ hno with ⟨hmakes, hm, hr⟩ | hr
    · exact Or.inl ⟨hmakes, _, hm, hr⟩
    · exact Or.inr hr
  | addAttributedOrder message =>
    rcases add_refused h _ _ _ _ hno with ⟨hmakes, hm, hr⟩ | hr
    · exact Or.inl ⟨hmakes, _, hm, hr⟩
    · exact Or.inr hr
  | orderExecuted message => exact Or.inr ⟨fun h => h, update_refused hno⟩
  | orderExecutedWithPrice message => exact Or.inr ⟨fun h => h, update_refused hno⟩
  | orderCancel message => exact Or.inr ⟨fun h => h, update_refused hno⟩
  | orderDelete message => exact Or.inr ⟨fun h => h, update_refused hno⟩
  | orderReplace message => exact Or.inr ⟨fun h => h, update_refused hno⟩
  | _ => exact Or.inr ⟨fun h => h, rfl⟩

/-- A refused event of an engine. -/
theorem refused_iff (h : Represents e m) (place : Placement) (event : ItchEvent)
    {result : ApplyResult} (run : (apply (.reliable place) event).run e = .ok result e')
    (hno : result.changedBook = false) :
    (SameBooks e e' ↔ ¬e.LeavesEmptyBook event) ∧
      (¬e.LeavesEmptyBook event → { e' with stats := e.stats } = e ∧ Represents e' m) := by
  obtain ⟨e₁, run₁, h₁, _, hsame⟩ := apply_simulates h place event
  rw [run] at run₁
  cases run₁
  rcases apply_refused h event hno with ⟨hleaves, locate, hm, hr⟩ | ⟨hleaves, hr⟩
  · refine ⟨⟨fun hs => ?_, fun hnot => absurd hleaves hnot⟩, fun hnot => absurd hleaves hnot⟩
    have hfind := hs.findBook locate
    rw [h.isSome_findBook, h₁.isSome_findBook, hr, setBook_lookup, if_pos rfl, hm] at hfind
    cases hfind
  · rw [hr] at h₁
    exact ⟨⟨fun _ => hleaves, fun _ => h.sameBooks h₁⟩, fun _ => ⟨hsame hno hr, h₁⟩⟩

/-! ## A sequence of events -/

/-- The results of a sequence of events. -/
def applyAll : List (Placement × ItchEvent) → Engine (List ApplyResult)
  | [] => return []
  | (place, event) :: events => do
    let result ← apply (.reliable place) event
    return result :: (← applyAll events)

theorem applyAll_cons {place : Placement} {event : ItchEvent} {events : List (Placement × ItchEvent)}
    {result : ApplyResult} {results : List ApplyResult} {e'' : MatchingEngine}
    (run : (apply (.reliable place) event).run e = .ok result e')
    (run' : (applyAll events).run e' = .ok results e'') :
    (applyAll ((place, event) :: events)).run e = .ok (result :: results) e'' := by
  unfold applyAll
  rw [run_bind_ok run, run_bind_ok run']
  rfl

/-- The events that changed a book. -/
def kept (events : List (Placement × ItchEvent)) (results : List ApplyResult) :
    List (Placement × ItchEvent) :=
  ((events.zip results).filter fun x => x.2.changedBook).map Prod.fst

/-- No event of the sequence leaves an empty book. -/
def LeavesNone : MatchingEngine → List (Placement × ItchEvent) → Prop
  | _, [] => True
  | e, (place, event) :: events => ¬e.LeavesEmptyBook event ∧
    ∀ result e', (apply (.reliable place) event).run e = .ok result e' → LeavesNone e' events

/-- The kept events alone, from any engine with the same books. -/
theorem applyAll_kept (events : List (Placement × ItchEvent)) :
    ∀ {e e₂ e' m results}, Represents e m → Represents e₂ m → LeavesNone e events →
      (applyAll events).run e = .ok results e' →
      ∃ e'' m', (applyAll (kept events results)).run e₂ =
          .ok (results.filter fun result => result.changedBook) e'' ∧
        Represents e' m' ∧ Represents e'' m' := by
  induction events with
  | nil =>
    intro e e₂ e' m results h h₂ _ run
    cases run
    exact ⟨e₂, m, rfl, h, h₂⟩
  | cons head events ih =>
    obtain ⟨place, event⟩ := head
    intro e e₂ e' m results h h₂ hclean run
    obtain ⟨result, e₁, run₁, runRest⟩ := of_run_bind_ok run
    obtain ⟨rest, e₃, runEvents, hrest⟩ := of_run_bind_ok runRest
    cases hrest
    obtain ⟨hevent, hclean⟩ := hclean
    cases hchanged : result.changedBook with
    | false =>
      -- the event is dropped, and the second engine waits
      obtain ⟨_, hsame⟩ := refused_iff h place event run₁ hchanged
      obtain ⟨e'', m', run', h', h''⟩ := ih (hsame hevent).2 h₂ (hclean _ _ run₁) runEvents
      refine ⟨e'', m', ?_, h', h''⟩
      rw [kept, List.zip_cons_cons, List.filter_cons_of_neg (by simp [hchanged]),
        List.filter_cons_of_neg (by simp [hchanged])]
      exact run'
    | true =>
      obtain ⟨e₁', run₁', h₁, _⟩ := apply_simulates h place event
      obtain ⟨e₂', run₂', h₂', _⟩ := apply_simulates h₂ place event
      rw [run₁] at run₁'
      cases run₁'
      obtain ⟨e'', m', run', h', h''⟩ := ih h₁ h₂' (hclean _ _ run₁) runEvents
      refine ⟨e'', m', ?_, h', h''⟩
      rw [kept, List.zip_cons_cons, List.filter_cons_of_pos (by exact hchanged),
        List.filter_cons_of_pos (by exact hchanged), List.map_cons]
      exact applyAll_cons run₂' run'

/-- **Refused events.** In every reachable engine a refused or ignored event leaves the engine as it
is exactly if it leaves no empty book; and then, in a sequence without such events, the refused ones
can be left out: the others return the same, and the books end up the same. -/
theorem refused_events (h : Reachable limits e) :
    (∀ place event result e', (apply (.reliable place) event).run e = .ok result e' →
      result.changedBook = false →
        (SameBooks e e' ↔ ¬e.LeavesEmptyBook event) ∧
          (¬e.LeavesEmptyBook event → { e' with stats := e.stats } = e)) ∧
    ∀ events results e', LeavesNone e events → (applyAll events).run e = .ok results e' →
      ∃ e'', (applyAll (kept events results)).run e =
          .ok (results.filter fun result => result.changedBook) e'' ∧ SameBooks e' e'' := by
  obtain ⟨m, h, _⟩ := h.represents
  refine ⟨fun place event result e' run hno => ?_, fun events results e' hclean run => ?_⟩
  · obtain ⟨hiff, hsame⟩ := refused_iff h place event run hno
    exact ⟨hiff, fun hnot => (hsame hnot).1⟩
  · obtain ⟨e'', m', run', h', h''⟩ := applyAll_kept events h h hclean run
    exact ⟨e'', run', h'.sameBooks h''⟩

/-- In a book with an order: an order of no shares and an execution of an unknown order are refused, and
the engine is left as it is; an order and a cancellation are kept. -/
theorem refused_events_two :
    let add (id : OrderId) (shares : Quantity) : ItchEvent :=
      .addOrder ⟨⟨1, 0, 0⟩, id, .Buy, shares, Vector.replicate 8 65, 100⟩
    let cancel : ItchEvent := .orderCancel ⟨⟨1, 0, 0⟩, 7, 4⟩
    let execute : ItchEvent := .orderExecuted ⟨⟨1, 0, 0⟩, 3, 1, 0⟩
    let events : List (Placement × ItchEvent) :=
      [(.bump, add 8 0), (.bump, add 9 5), (.bump, execute), (.bump, cancel)]
    let results : List ApplyResult :=
      [⟨.Rejected, 1, false⟩, ⟨.Added, 1, true⟩, ⟨.Rejected, 1, false⟩, ⟨.Cancelled, 1, true⟩]
    ∃ e e' e'', Reachable {} e ∧ e.order 1 7 = some ⟨7, .Buy, 100, 10⟩ ∧ LeavesNone e events ∧
      (∃ e₁, (apply (.reliable .bump) (add 8 0)).run e = .ok ⟨.Rejected, 1, false⟩ e₁ ∧
        { e₁ with stats := e.stats } = e) ∧
      (applyAll events).run e = .ok results e' ∧
      (applyAll [(.bump, add 9 5), (.bump, cancel)]).run e =
        .ok [⟨.Added, 1, true⟩, ⟨.Cancelled, 1, true⟩] e'' ∧
      SameBooks e' e'' := by
  intro add cancel execute events results
  obtain ⟨e, hreach, h⟩ := exists_reachable {} [.apply (add 7 10)]
  obtain ⟨e₁, run₁, h₁, _⟩ := apply_simulates h .bump (add 8 0)
  obtain ⟨e₂, run₂, h₂, _⟩ := apply_simulates h₁ .bump (add 9 5)
  obtain ⟨e₃, run₃, h₃, _⟩ := apply_simulates h₂ .bump execute
  obtain ⟨e₄, run₄, _⟩ := apply_simulates h₃ .bump cancel
  have run : (applyAll events).run e = .ok results e₄ :=
    applyAll_cons run₁ (applyAll_cons run₂ (applyAll_cons run₃ (applyAll_cons run₄ rfl)))
  have hbook : (e.findBook 1).isSome := by
    rw [h.isSome_findBook]
    decide
  have hfirst : ¬e.LeavesEmptyBook (add 8 0) := fun hleaves => by
    rw [hleaves.2.1] at hbook
    cases hbook
  have hnone : LeavesNone e events :=
    ⟨hfirst, fun _ _ _ => ⟨fun hleaves => absurd hleaves.1 (by decide), fun _ _ _ =>
      ⟨fun hleaves => hleaves, fun _ _ _ => ⟨fun hleaves => hleaves, fun _ _ _ => trivial⟩⟩⟩⟩
  have hrefused := refused_events hreach
  obtain ⟨e'', run'', hsame⟩ := hrefused.2 events _ e₄ hnone run
  exact ⟨e, e₄, e'', hreach, by rw [h.order_eq]; decide, hnone,
    ⟨e₁, run₁, (hrefused.1 _ _ _ _ run₁ rfl).2 hfirst⟩, run, run'', hsame⟩

/-- With one instrument allowed, an order of no shares for locate 1 is refused and takes the place of
locate 2, whose order is refused in turn; without the first event it is added. -/
theorem refused_event_leaves_book :
    let limits : EngineLimits := { maxInstruments := 1 }
    let empty : ItchEvent := .addOrder ⟨⟨1, 0, 0⟩, 7, .Buy, 0, Vector.replicate 8 65, 100⟩
    let order : ItchEvent := .addOrder ⟨⟨2, 0, 0⟩, 8, .Buy, 5, Vector.replicate 8 65, 100⟩
    (∃ e', (apply (.reliable .bump) empty).run (new limits) = .ok ⟨.Rejected, 1, false⟩ e' ∧
      ¬SameBooks (new limits) e' ∧
      ∃ e'', (apply (.reliable .bump) order).run e' = .ok ⟨.Rejected, 2, false⟩ e'') ∧
    ∃ e', (apply (.reliable .bump) order).run (new limits) = .ok ⟨.Added, 2, true⟩ e' := by
  intro limits empty order
  have h := new_represents limits
  obtain ⟨e₁, run₁, h₁, _⟩ := apply_simulates h .bump empty
  obtain ⟨e₂, run₂, h₂, _⟩ := apply_simulates h₁ .bump order
  obtain ⟨e₃, run₃, h₃, _⟩ := apply_simulates h .bump order
  refine ⟨⟨e₁, run₁, fun hs => ?_, e₂, run₂⟩, e₃, run₃⟩
  have hcount := hs.instrumentCount
  rw [h.instrumentCount, h₁.instrumentCount] at hcount
  revert hcount
  decide

end MatchingEngine

end Lob
