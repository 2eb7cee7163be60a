import Lob.Engine.Lifecycle
import Lob.Engine.Refusals
import Lob.Engine.Splitting

/-!
# Fills are executions

The two ways to change a book agree. A submitted order does to the engine what the feed would do that
reported it: an execution for each fill, and then the display of what rests.
-/

namespace Lob

open Basis ReferenceEngine

/-! ## The feed of a submitted order -/

/-- The event reports the fill. -/
def Executes (locate : StockLocate) (fill : Fill) : ItchEvent → Prop
  | .orderExecuted message => message.header.stockLocate = locate ∧
    message.orderReference = fill.restingOrder ∧ message.executedShares = fill.quantity
  | .orderExecutedWithPrice message => message.header.stockLocate = locate ∧
    message.orderReference = fill.restingOrder ∧ message.executedShares = fill.quantity
  | _ => False

/-- The event displays a new order. -/
def Displays (locate : StockLocate) (orderId : OrderId) (side : Side) (price : Price)
    (shares : Quantity) : ItchEvent → Prop
  | .addOrder message => message.header.stockLocate = locate ∧ message.orderReference = orderId ∧
    message.side = side ∧ message.price = price ∧ message.shares = shares
  | .addAttributedOrder message => message.header.stockLocate = locate ∧
    message.orderReference = orderId ∧ message.side = side ∧ message.price = price ∧
    message.shares = shares
  | _ => False

variable {m : ReferenceEngine} {locate : StockLocate} {side : Side} {event : ItchEvent}
  {r : ReferenceBook}

theorem Executes.apply {fill : Fill} (h : Executes locate fill event) :
    m.apply event =
      m.update locate .Executed fun r => r.execute fill.restingOrder fill.quantity := by
  cases event with
  | orderExecuted message =>
    obtain ⟨rfl, hid, hshares⟩ := h
    rw [← hid, ← hshares]
    rfl
  | orderExecutedWithPrice message =>
    obtain ⟨rfl, hid, hshares⟩ := h
    rw [← hid, ← hshares]
    rfl
  | _ => exact h.elim

theorem Displays.apply {orderId : OrderId} {price : Price} {shares : Quantity}
    (h : Displays locate orderId side price shares event) :
    m.apply event = m.add locate orderId side price shares := by
  cases event with
  | addOrder message =>
    obtain ⟨rfl, rfl, rfl, rfl, rfl⟩ := h
    rfl
  | addAttributedOrder message =>
    obtain ⟨rfl, rfl, rfl, rfl, rfl⟩ := h
    rfl
  | _ => exact h.elim

/-! ## Executions of the reference engine -/

/-- **The executions of a sweep**, one after the other: each takes from the front of what is left. -/
theorem replay_executions {reaches : Price → Bool} {events : List ItchEvent} :
    ∀ {m : ReferenceEngine} {r : ReferenceBook} (n : ℕ), m.books.lookup locate = some r → r.WF →
      List.Forall₂ (Executes locate) ((greedy OrderView.held (r.queue side reaches) n).map toFill)
        events →
      m.replay events = m.setBook locate (r.take (greedy OrderView.held (r.queue side reaches) n)) ∧
        m.results events = List.replicate events.length ⟨.Executed, locate, true⟩ := by
  induction events with
  | nil =>
    intro m r n hm _ h
    have hnil := List.map_eq_nil_iff.mp (List.forall₂_nil_right_iff.mp h)
    rw [hnil]
    exact ⟨(setBook_same hm).symm, rfl⟩
  | cons event events ih =>
    intro m r n hm hwf h
    have hn : n ≠ 0 := by
      rintro rfl
      rw [greedy_zero] at h
      cases h
    cases hq : r.queue side reaches with
    | nil =>
      rw [hq] at h
      cases h
    | cons v queue =>
      obtain ⟨hok, ht, hgreedy, _⟩ := hwf.sweep_step hq hn
      rw [hq, hgreedy] at h
      rw [hgreedy]
      obtain ⟨hevent, hrest⟩ := List.forall₂_cons.mp h
      set r' := (r.execute v.orderId (BitVec.ofNat 32 (min n v.held))).2 with hr'
      have happly : m.apply event = (⟨.Executed, locate, true⟩, m.setBook locate r') := by
        rw [hevent.apply]
        unfold ReferenceEngine.update
        rw [hm]
        exact if_pos hok
      have hlook : (m.setBook locate r').books.lookup locate = some r' := by
        rw [setBook_lookup, if_pos rfl]
      obtain ⟨hreplay, hresults⟩ := ih (n - min n v.held) hlook ht.wf hrest
      refine ⟨?_, ?_⟩
      · show (m.apply event).2.replay events = _
        rw [happly, hreplay, setBook_setBook]
        rfl
      · show (m.apply event).1 :: (m.apply event).2.results events = _
        rw [happly, hresults]
        rfl

/-- The executions of what a submitted order takes. -/
theorem replay_swept (hwf : (m.book locate).WF) {reaches : Price → Bool} {quantity : Quantity}
    {events : List ItchEvent}
    (h : List.Forall₂ (Executes locate) ((m.taken locate side reaches quantity).map toFill) events) :
    m.replay events = m.swept locate side reaches quantity ∧
      m.results events = List.replicate events.length ⟨.Executed, locate, true⟩ := by
  unfold ReferenceEngine.swept
  cases hm : m.books.lookup locate with
  | none =>
    rw [taken_of_lookup_none hm] at h
    cases h
    exact ⟨rfl, rfl⟩
  | some r =>
    rw [book_of_lookup hm] at hwf
    unfold taken at h ⊢
    rw [book_of_lookup hm] at h ⊢
    exact replay_executions quantity.toNat hm hwf h

theorem replay_append (events more : List ItchEvent) :
    m.replay (events ++ more) = (m.replay events).replay more := List.foldl_append

theorem results_append (events more : List ItchEvent) :
    m.results (events ++ more) = m.results events ++ (m.replay events).results more := by
  induction events generalizing m with
  | nil => rfl
  | cons event events ih => exact congrArg ((m.apply event).1 :: ·) ih

/-- What follows the executions: the display of the shares that rest. -/
def RestDisplayed (locate : StockLocate) (orderId : OrderId) (side : Side) (price : Price)
    (resting : Quantity) (events : List ItchEvent) : Prop :=
  if resting = 0 then events = []
  else ∃ event, events = [event] ∧ Displays locate orderId side price resting event

/-- The fills of a report that has them all. -/
theorem taken_of_report {quantity : Quantity} {taken : List (OrderView × ℕ)} {output : List Fill}
    (h : (matchResult quantity output.length taken).fillsTruncated = false) :
    (writeFills taken output).take taken.length = taken.map toFill :=
  MatchingEngine.take_writeFills (Nat.not_lt.mp (of_decide_eq_false h))

/-- A display that the engine has room for. -/
theorem replay_display {orderId : OrderId} {price : Price} {shares : Quantity}
    (h : Displays locate orderId side price shares event) (hcan : m.CanCreateOrder locate)
    (hok : ((m.book locate).add orderId side price shares).1 = true) :
    m.apply event = (⟨.Added, locate, true⟩,
      m.setBook locate ((m.book locate).add orderId side price shares).2) := by
  rw [h.apply]
  unfold ReferenceEngine.add
  rw [if_pos hcan, if_pos hok]

/-- **A limit order** does what the feed of its fills and of its remainder does. -/
theorem submitLimit_replayed (hwf : (m.book locate).WF) {orderId : OrderId} {limitPrice : Price}
    {quantity : Quantity} {output : List Fill} {events more : List ItchEvent}
    (hwhole : (m.submitLimit locate orderId side limitPrice quantity output).1.1.fillsTruncated = false)
    (hevents : List.Forall₂ (Executes locate)
      ((m.submitLimit locate orderId side limitPrice quantity output).1.2.take
        (m.submitLimit locate orderId side limitPrice quantity output).1.1.fillCount) events)
    (hmore : RestDisplayed locate orderId side limitPrice
      (m.submitLimit locate orderId side limitPrice quantity output).1.1.resting more) :
    m.replay (events ++ more) = (m.submitLimit locate orderId side limitPrice quantity output).2 ∧
      m.results (events ++ more) = List.replicate events.length ⟨.Executed, locate, true⟩ ++
        List.replicate more.length ⟨.Added, locate, true⟩ := by
  rw [replay_append, results_append]
  unfold ReferenceEngine.submitLimit at hwhole hevents hmore ⊢
  by_cases hbad : quantity = 0 ∨ (m.book locate).contains orderId = true
  · rw [if_pos hbad] at hwhole hevents hmore ⊢
    cases hevents
    rw [show more = [] from hmore]
    exact ⟨rfl, rfl⟩
  rw [if_neg hbad] at hwhole hevents hmore ⊢
  simp only at hwhole hevents hmore ⊢
  set taken := m.taken locate side (reach true side limitPrice) quantity with htaken
  -- the executions
  have hswept : ∀ {events}, List.Forall₂ (Executes locate) ((writeFills taken output).take taken.length)
      events → (matchResult quantity output.length taken).fillsTruncated = false →
      m.replay events = m.swept locate side (reach true side limitPrice) quantity ∧
        m.results events = List.replicate events.length ⟨.Executed, locate, true⟩ := by
    intro events h hwhole
    rw [taken_of_report hwhole] at h
    exact replay_swept hwf h
  by_cases hdone : (matchResult quantity output.length taken).resting = 0
  · rw [if_pos hdone] at hwhole hevents hmore ⊢
    obtain ⟨hreplay, hresults⟩ := hswept hevents hwhole
    rw [RestDisplayed, if_pos hdone] at hmore
    rw [hreplay, hresults, hmore]
    exact ⟨rfl, rfl⟩
  rw [if_neg hdone] at hwhole hevents hmore ⊢
  by_cases hcan : (m.swept locate side (reach true side limitPrice) quantity).CanCreateOrder locate
  · rw [if_pos hcan] at hwhole hevents hmore ⊢
    obtain ⟨hreplay, hresults⟩ := hswept hevents hwhole
    rw [RestDisplayed, if_neg hdone] at hmore
    obtain ⟨event, rfl, hevent⟩ := hmore
    have hok : (((m.swept locate side (reach true side limitPrice) quantity).book locate).add orderId
        side limitPrice (matchResult quantity output.length taken).resting).1 = true := by
      unfold ReferenceBook.add
      rw [if_neg]
      rintro (hzero | hcontains)
      · exact hdone hzero
      · exact hbad (Or.inr (MatchingEngine.contains_swept hcontains))
    rw [hreplay, hresults]
    have happly := replay_display hevent hcan hok
    refine ⟨congrArg Prod.snd happly, ?_⟩
    show _ ++ [(ReferenceEngine.apply _ event).1] = _
    rw [happly]
    rfl
  · rw [if_neg hcan] at hwhole hevents hmore ⊢
    obtain ⟨hreplay, hresults⟩ := hswept hevents hwhole
    rw [show more = [] from hmore, hreplay, hresults]
    exact ⟨rfl, rfl⟩

/-- **A market order** does what the feed of its fills does. -/
theorem submitMarket_replayed (hwf : (m.book locate).WF) {quantity : Quantity} {output : List Fill}
    {events : List ItchEvent}
    (hwhole : (m.submitMarket locate side quantity output).1.1.fillsTruncated = false)
    (hevents : List.Forall₂ (Executes locate)
      ((m.submitMarket locate side quantity output).1.2.take
        (m.submitMarket locate side quantity output).1.1.fillCount) events) :
    m.replay events = (m.submitMarket locate side quantity output).2 ∧
      m.results events = List.replicate events.length ⟨.Executed, locate, true⟩ := by
  unfold ReferenceEngine.submitMarket at hwhole hevents ⊢
  by_cases hzero : quantity = 0
  · rw [if_pos hzero] at hwhole hevents ⊢
    cases hevents
    exact ⟨rfl, rfl⟩
  · rw [if_neg hzero] at hwhole hevents ⊢
    set taken := m.taken locate side (reach false side 0) quantity with htaken
    change (matchResult quantity output.length taken).fillsTruncated = false at hwhole
    change List.Forall₂ _ ((writeFills taken output).take taken.length) events at hevents
    rw [taken_of_report hwhole] at hevents
    exact replay_swept hwf hevents

/-! ## Executions of the engine -/

namespace MatchingEngine

variable {e e' : MatchingEngine} {limits : EngineLimits}

theorem applyAll_simulates (calls : List (Placement × ItchEvent)) :
    ∀ {e m}, Represents e m → ∃ e', (applyAll calls).run e =
      .ok (m.results (calls.map Prod.snd)) e' ∧ Represents e' (m.replay (calls.map Prod.snd)) := by
  induction calls with
  | nil => exact fun h => ⟨_, rfl, h⟩
  | cons call calls ih =>
    obtain ⟨place, event⟩ := call
    intro e m h
    obtain ⟨e₁, run₁, h₁, _⟩ := apply_simulates h place event
    obtain ⟨e₂, run₂, h₂⟩ := ih h₁
    exact ⟨e₂, applyAll_cons run₁ run₂, h₂⟩

/-- The feed does to `e` what was done to `e'`, and every event of it is accepted. -/
def Reported (e e' : MatchingEngine) (locate : StockLocate) (executions displays : List ItchEvent) :
    Prop :=
  ∀ calls : List (Placement × ItchEvent), calls.map Prod.snd = executions ++ displays →
    ∃ e'', (applyAll calls).run e = .ok
      (List.replicate executions.length ⟨.Executed, locate, true⟩ ++
        List.replicate displays.length ⟨.Added, locate, true⟩) e'' ∧ SameBooks e' e''

theorem reported_of_replay {executions displays : List ItchEvent} {m' : ReferenceEngine}
    (h : Represents e m) (h' : Represents e' m')
    (hreplay : m.replay (executions ++ displays) = m')
    (hresults : m.results (executions ++ displays) =
      List.replicate executions.length ⟨.Executed, locate, true⟩ ++
        List.replicate displays.length ⟨.Added, locate, true⟩) :
    Reported e e' locate executions displays := by
  intro calls hcalls
  obtain ⟨e'', run, h''⟩ := applyAll_simulates calls h
  rw [hcalls, hresults] at run
  rw [hcalls, hreplay] at h''
  exact ⟨e'', run, h'.sameBooks h''⟩

/-- **Fills are executions.** In every reachable engine, a submitted order whose fills are all reported
does to the books what the feed does that has an execution for each fill and then displays what rests;
the feed is accepted, event by event. -/
theorem fills_are_executions (h : Reachable limits e) :
    (∀ place locate orderId side limitPrice quantity output result output' e',
      (submitLimit (.reliable place) locate orderId side limitPrice quantity output).run e =
        .ok (result, output') e' → result.fillsTruncated = false → ∀ executions displays,
      List.Forall₂ (Executes locate) (output'.take result.fillCount) executions →
      RestDisplayed locate orderId side limitPrice result.resting displays →
        Reported e e' locate executions displays) ∧
    ∀ locate side quantity output result output' e',
      (submitMarket locate side quantity output).run e = .ok (result, output') e' →
      result.fillsTruncated = false → ∀ executions,
      List.Forall₂ (Executes locate) (output'.take result.fillCount) executions →
        Reported e e' locate executions [] := by
  obtain ⟨m, hrep, _⟩ := h.represents
  refine ⟨fun place locate orderId side limitPrice quantity output result output' e' run hwhole
    executions displays hexecutions hdisplays => ?_,
    fun locate side quantity output result output' e' run hwhole executions hexecutions => ?_⟩
  · obtain ⟨e₁, run₁, h₁, _⟩ :=
      submitLimit_simulates hrep place locate orderId side limitPrice quantity output
    rw [run] at run₁
    obtain ⟨heq, rfl⟩ := EStateM.Result.ok.inj run₁
    rw [Prod.ext_iff] at heq
    obtain ⟨rfl, rfl⟩ := heq
    obtain ⟨hreplay, hresults⟩ :=
      submitLimit_replayed (hrep.wf locate) hwhole hexecutions hdisplays
    exact reported_of_replay hrep h₁ hreplay hresults
  · obtain ⟨e₁, run₁, h₁, _⟩ := submitMarket_simulates hrep locate side quantity output
    rw [run] at run₁
    obtain ⟨heq, rfl⟩ := EStateM.Result.ok.inj run₁
    rw [Prod.ext_iff] at heq
    obtain ⟨rfl, rfl⟩ := heq
    obtain ⟨hreplay, hresults⟩ := submitMarket_replayed (hrep.wf locate) hwhole hexecutions
    refine reported_of_replay hrep h₁ ?_ ?_
    · rw [List.append_nil]
      exact hreplay
    · rw [List.append_nil]
      exact hresults.trans (List.append_nil _).symm

/-- Fifteen shares against an ask of ten: one execution, and five shares to display. -/
theorem fills_are_executions_against_ask :
    let executed : ItchEvent := .orderExecuted ⟨⟨1, 0, 0⟩, 7, 10, 0⟩
    let displayed : ItchEvent := .addOrder ⟨⟨1, 0, 0⟩, 9, .Buy, 5, Vector.replicate 8 65, 100⟩
    ∃ e e' e'', Reachable {} e ∧ e.order 1 7 = some ⟨7, .Sell, 100, 10⟩ ∧
      (submitLimit (.reliable .bump) 1 9 .Buy 100 15 [⟨0, 0, 0⟩]).run e =
        .ok ({ filled := 10, resting := 5, fillCount := 1 }, [⟨7, 100, 10⟩]) e' ∧
      (applyAll [(.bump, executed), (.bump, displayed)]).run e =
        .ok [⟨.Executed, 1, true⟩, ⟨.Added, 1, true⟩] e'' ∧
      e'.order 1 7 = none ∧ e'.order 1 9 = some ⟨9, .Buy, 100, 5⟩ ∧ SameBooks e' e'' := by
  intro executed displayed
  obtain ⟨e, run₀, h, _⟩ := runCalls_new {}
    [(.bump, .apply (.addOrder ⟨⟨1, 0, 0⟩, 7, .Sell, 10, Vector.replicate 8 65, 100⟩))]
  have hreach : Reachable {} e := ⟨_, _, run₀⟩
  obtain ⟨reported, e', run⟩ : ∃ reported e',
      (submitLimit (.reliable .bump) 1 9 .Buy 100 15 [⟨0, 0, 0⟩]).run e = .ok reported e' :=
    let ⟨e', run, _⟩ := submitLimit_simulates h .bump 1 9 .Buy 100 15 [⟨0, 0, 0⟩]
    ⟨_, e', run⟩
  have hparts : (reported, e'.order 1 7, e'.order 1 9) =
      (({ filled := 10, resting := 5, fillCount := 1 }, [⟨7, 100, 10⟩]), none,
        some ⟨9, .Buy, 100, 5⟩) :=
    of_evaluate ((run_bind_ok (f := fun _ => submitLimit _ _ _ _ _ _ _) run₀).trans run)
      (fun reported e' => (reported, e'.order 1 7, e'.order 1 9)) (by decide +kernel)
  obtain ⟨hreported, hgone, hrests⟩ := by simpa only [Prod.mk.injEq] using hparts
  rw [hreported] at run
  obtain ⟨e'', run', hsame⟩ := (fills_are_executions hreach).1 _ _ _ _ _ _ _ _ _ e' run rfl
    [executed] [displayed] (.cons ⟨rfl, rfl, rfl⟩ .nil) ⟨displayed, rfl, rfl, rfl, rfl, rfl, rfl⟩
    [(.bump, executed), (.bump, displayed)] rfl
  exact ⟨e, e', e'', hreach, by rw [h.order_eq]; decide, run, run', hgone, hrests, hsame⟩

end MatchingEngine

end Lob
