import Lob.Basis.Triple
import Lob.Book.Exceptions
import Lob.Engine.Runs
import Mathlib.Data.Set.Card

/-!
# The engine under failing allocations

Books keep their guarantee when an allocation fails, and so does the engine, except where the entry of
a new locate is made and the memory for its book is refused: `try_emplace` has mapped the locate to no
book by then.
-/

namespace Lob

open Basis

namespace OrderBook

/-- A book that represents some reference book. -/
def Sound (b : OrderBook) : Prop := ∃ r, b.Represents r

theorem call_sound (al : Alloc) (call : Call) {b : OrderBook} (h : b.Sound) :
    Triple (· = b) (call.onBook al) (fun _ => Sound) fun fault b' => fault = .badAlloc ∧ b'.Sound := by
  refine Triple.of_run ?_
  rintro _ rfl
  obtain ⟨r, h⟩ := h
  rcases call_simulates al call h with ⟨b', run, h', _⟩ | ⟨b', run, h', _⟩
  · exact Or.inl ⟨_, b', run, _, h'⟩
  · exact Or.inr ⟨_, b', run, rfl, _, h'⟩

end OrderBook

namespace MatchingEngine

variable {e e' : MatchingEngine} {locate : StockLocate} {al : Alloc}

/-- Every locate in use has a book, and a sound one. -/
def Sound (e : MatchingEngine) : Prop :=
  ∀ locate entry, e.books.lookup locate = some entry → ∃ b, entry = some b ∧ b.Sound

/-- The locate is in use. -/
def SoundAt (locate : StockLocate) (e : MatchingEngine) : Prop :=
  e.Sound ∧ (e.findBook locate).isSome

/-- A call that throws leaves a sound engine. -/
def Throws (fault : Fault) (e : MatchingEngine) : Prop := fault = .badAlloc ∧ e.Sound

theorem new_sound (limits : EngineLimits) : (new limits).Sound := fun _ _ h => nomatch h

theorem Sound.of_books (h : e.Sound) (hbooks : e'.books = e.books) : e'.Sound := by
  unfold Sound
  rw [hbooks]
  exact h

theorem Sound.setBook (h : e.Sound) {b : OrderBook} (hb : b.Sound) (locate : StockLocate) :
    SoundAt locate { e with books := e.books.insert locate (some b) } := by
  refine ⟨fun locate' entry hentry => ?_, ?_⟩
  · change (e.books.insert locate (some b)).lookup locate' = some entry at hentry
    rw [lookup_insert_ite] at hentry
    split_ifs at hentry with hne
    · exact ⟨b, (Option.some.inj hentry).symm, hb⟩
    · exact h locate' entry hentry
  · unfold findBook
    rw [Finmap.lookup_insert]
    rfl

theorem SoundAt.book (h : SoundAt locate e) :
    ∃ b r, e.findBook locate = some b ∧ b.Represents r := by
  obtain ⟨b, hfind⟩ := Option.isSome_iff_exists.mp h.2
  have hlookup : e.books.lookup locate = some (some b) := by
    unfold findBook at hfind
    exact Option.join_eq_some_iff.mp hfind
  obtain ⟨b', hb', r, hrep⟩ := h.1 locate _ hlookup
  cases hb'
  exact ⟨b, r, hfind, hrep⟩

theorem Sound.lookup_none (h : e.Sound) (hfind : e.findBook locate = none) :
    e.books.lookup locate = none := by
  cases hlookup : e.books.lookup locate with
  | none => rfl
  | some entry =>
    obtain ⟨b, rfl, _⟩ := h locate entry hlookup
    unfold findBook at hfind
    rw [hlookup] at hfind
    cases hfind

/-! ## Operations on a book -/

theorem onBook_sound (locate : StockLocate) (al : Alloc) (call : Call) :
    Triple (SoundAt locate) (onBook locate (call.onBook al)) (fun _ => SoundAt locate) Throws := by
  refine Triple.focus fun e he => ?_
  obtain ⟨b, r, hfind, hrep⟩ := he.book
  refine ⟨b, by rw [hfind]; rfl, (OrderBook.call_sound al call ⟨r, hrep⟩).conseq (fun _ => id)
    (fun _ b' hb' => he.1.setBook hb' locate)
      fun fault b' hb' => ⟨hb'.1, (he.1.setBook hb'.2 locate).1⟩⟩

theorem readBest_sound (locate : StockLocate) (side : Side) :
    Triple (SoundAt locate) (readBook locate (oppositeBest side)) (fun _ => SoundAt locate) Throws := by
  refine Triple.observe fun e he => ?_
  obtain ⟨b, r, hfind, hrep⟩ := he.book
  obtain ⟨best, hbest, _⟩ := hrep.observes.oppositeBest side
  exact ⟨best, by rw [hfind, deref_some, except_ok_bind, hbest], he⟩

/-- The front order of a level has shares. -/
theorem readFront_sound (locate : StockLocate) (side : Side) (price : Price) :
    Triple (SoundAt locate) (readBook locate fun book => book.frontOrder side price)
      (fun front e => (∀ v, front = some v → v.quantity ≠ 0) ∧ SoundAt locate e) Throws := by
  refine Triple.observe fun e he => ?_
  obtain ⟨b, r, hfind, hrep⟩ := he.book
  refine ⟨r.frontOrder side price, ?_, fun v hv => ?_, he⟩
  · rw [hfind, deref_some, except_ok_bind]
    exact hrep.observes.frontOrder side price
  · obtain ⟨q, hlay, _, hag⟩ := hrep
    obtain ⟨id, hhead, hid⟩ := Option.bind_eq_some_iff.mp hv
    obtain ⟨order, hlook, rfl⟩ := Option.map_eq_some_iff.mp hid
    exact (hag.wf hlay).positive hlook

theorem findOrder_sound (locate : StockLocate) (reference : OrderId) :
    Triple Sound (observe fun e => e.findOrder locate reference)
      (fun order e => e.Sound ∧ (order.isSome → (e.findBook locate).isSome)) Throws := by
  refine Triple.observe fun e he => ?_
  unfold findOrder
  cases hfind : e.findBook locate with
  | none => exact ⟨none, rfl, he, nofun⟩
  | some b =>
    have hat : SoundAt locate e := ⟨he, by rw [hfind]; rfl⟩
    obtain ⟨b', r, hfind', hrep⟩ := hat.book
    obtain rfl := Option.some.inj (hfind.symm.trans hfind')
    exact ⟨r.order reference, hrep.observes.order reference, he, fun _ => rfl⟩

/-! ## `apply` -/

/-- The end of a call: counters change, and it returns. -/
theorem finish_sound {α : Type} {f : MatchingEngine → MatchingEngine} {a : α}
    (hf : ∀ e, (f e).books = e.books) :
    Triple Sound (do modify f; return a : Engine α) (fun _ => Sound) Throws :=
  Triple.bind (Triple.modify fun _ he => he.of_books (hf _)) fun _ => Triple.pure fun _ => id

theorem reject_sound (locate : StockLocate) :
    Triple Sound (reject locate) (fun _ => Sound) Throws := finish_sound fun _ => rfl

theorem applyReduction_sound (locate : StockLocate) (reference : OrderId) (shares : Quantity)
    (call : Call) (al : Alloc) (tally : ReplayStats → ReplayStats) (action : ApplyAction) :
    Triple Sound (applyReduction locate reference shares (call.onBook al) tally action)
      (fun _ => Sound) Throws := by
  unfold applyReduction
  refine (findOrder_sound locate reference).bind fun order => ?_
  cases order with
  | none => exact (reject_sound locate).pre fun _ he => he.1
  | some order =>
    refine Triple.pre (Triple.bind (onBook_sound locate al call) fun changed => ?_)
      fun _ he => ⟨he.1, he.2 rfl⟩
    refine Triple.pre (Triple.ite (fun _ => reject_sound locate) fun _ => ?_) fun _ he => he.1
    refine Triple.ite (fun _ => ?_) fun _ => finish_sound fun _ => rfl
    exact Triple.bind (Triple.modify fun _ he => he.of_books rfl) fun _ => finish_sound fun _ => rfl

/-- An operation on a book that exists, and the end of the handler. -/
theorem change_sound (locate : StockLocate) (call : Call) (al : Alloc) (result : ApplyResult)
    {f : MatchingEngine → MatchingEngine} (hf : ∀ e, (f e).books = e.books) :
    Triple (SoundAt locate) (onBook locate (call.onBook al) >>= fun changed =>
      if (!changed) = true then reject locate else do modify f; return result)
      (fun _ => Sound) Throws := by
  refine (onBook_sound locate al call).bind fun changed => ?_
  exact Triple.pre (Triple.ite (fun _ => reject_sound locate) fun _ => finish_sound hf) fun _ he => he.1

theorem applyDelete_sound (locate : StockLocate) (reference : OrderId) :
    Triple Sound (applyDelete locate reference) (fun _ => Sound) Throws := by
  unfold applyDelete
  refine Triple.get.bind fun e => ?_
  cases hfind : e.findBook locate with
  | none => exact (reject_sound locate).pre fun _ he => he.2
  | some b =>
    refine Triple.pre (change_sound locate (.erase reference) (.reliable .bump) _ fun _ => rfl) ?_
    rintro _ ⟨rfl, he⟩
    exact ⟨he, by rw [hfind]; rfl⟩

theorem applyReplace_sound (al : Alloc) (locate : StockLocate) (original new : OrderId) (price : Price)
    (shares : Quantity) :
    Triple Sound (applyReplace al locate original new price shares) (fun _ => Sound) Throws := by
  unfold applyReplace
  refine Triple.get.bind fun e => ?_
  cases hfind : e.findBook locate with
  | none => exact (reject_sound locate).pre fun _ he => he.2
  | some b =>
    refine Triple.pre (change_sound locate (.replace original new price shares) al _ fun _ => rfl) ?_
    rintro _ ⟨rfl, he⟩
    exact ⟨he, by rw [hfind]; rfl⟩

/-! ## Matching -/

/-- A fill takes shares of what remains. -/
theorem fill_lt {remaining quantity : Quantity} (hremaining : remaining ≠ 0)
    (hquantity : quantity ≠ 0) :
    (remaining - if remaining < quantity then remaining else quantity).toNat < remaining.toNat := by
  split_ifs <;> bv_omega

/-- The loop of `match`, with fuel for what remains. -/
theorem matchLoop_sound (locate : StockLocate) (side : Side) (limitPrice : Price) (hasLimit : Bool)
    (fuel : ℕ) : ∀ (remaining : Quantity) (result : MatchResult) (output : List Fill),
      remaining.toNat ≤ fuel →
      Triple (SoundAt locate)
        (matchLoop locate side limitPrice hasLimit fuel remaining result output)
        (fun _ => SoundAt locate) Throws := by
  induction fuel with
  | zero =>
    intro remaining result output hfuel
    obtain rfl : remaining = 0 := BitVec.eq_of_toNat_eq (Nat.le_zero.mp hfuel)
    unfold matchLoop
    rw [if_pos rfl]
    exact Triple.pure fun _ => id
  | succ fuel ih =>
    intro remaining result output hfuel
    unfold matchLoop
    refine Triple.ite (fun _ => Triple.pure fun _ => id) fun hremaining => ?_
    refine (readBest_sound locate side).bind fun best => ?_
    cases best with
    | none => exact Triple.pure fun _ => id
    | some price =>
      refine Triple.ite (fun _ => Triple.pure fun _ => id) fun _ => ?_
      refine (readFront_sound locate (opposite side) price).bind fun front => ?_
      cases front with
      | none => exact Triple.pure fun _ he => he.2
      | some v =>
        refine Triple.assume fun hpositive => ?_
        have hlt := fill_lt hremaining (hpositive v rfl)
        refine (onBook_sound locate (.reliable .bump) (.execute v.orderId _)).bind fun executed => ?_
        refine Triple.ite (fun _ => Triple.pure fun _ => id) fun _ => ?_
        have hrest := ih _ (recordFill ⟨v.orderId, price,
          if remaining < v.quantity then remaining else v.quantity⟩ result output).1
          (recordFill ⟨v.orderId, price,
            if remaining < v.quantity then remaining else v.quantity⟩ result output).2
          (by omega : (remaining - if remaining < v.quantity then remaining else v.quantity).toNat ≤ fuel)
        refine Triple.ite (fun _ => ?_) fun _ => hrest
        exact Triple.bind (Triple.modify fun _ he => ⟨he.1.of_books rfl, he.2⟩) fun _ => hrest

/-- `match` leaves a sound engine; without a book it reports all that is asked for as the remainder. -/
theorem matchOrder_sound (he : e.Sound) (side : Side) (limitPrice : Price) (quantity : Quantity)
    (hasLimit : Bool) (output : List Fill) :
    Triple (· = e) (matchOrder locate side limitPrice quantity hasLimit output)
      (fun out e' => e'.Sound ∧ ((e'.findBook locate).isSome ∨
        e' = e ∧ e.findBook locate = none ∧ out.1.resting = quantity)) Throws := by
  unfold matchOrder
  refine Triple.get.bind fun x => ?_
  cases hfind : x.findBook locate with
  | none =>
    refine Triple.pure ?_
    rintro _ ⟨rfl, rfl⟩
    exact ⟨he, Or.inr ⟨rfl, hfind, rfl⟩⟩
  | some b =>
    refine Triple.conseq (matchLoop_sound locate side limitPrice hasLimit quantity.toNat quantity {}
      output le_rfl) ?_ (fun _ _ he' => ⟨he'.1, Or.inl he'.2⟩) fun _ _ => id
    rintro _ ⟨rfl, rfl⟩
    exact ⟨he, by rw [hfind]; rfl⟩

theorem submitMarket_sound (locate : StockLocate) (side : Side) (quantity : Quantity)
    (output : List Fill) :
    Triple Sound (submitMarket locate side quantity output) (fun _ => Sound) Throws := by
  intro e he
  have hmatch : Triple (· = e) (submitMarket locate side quantity output) (fun _ => Sound) Throws := by
    unfold submitMarket
    refine Triple.ite (fun _ => Triple.pure fun _ h => h ▸ he) fun _ => ?_
    exact (matchOrder_sound he side 0 quantity false output).bind fun _ => Triple.pure fun _ h => h.1
  exact hmatch e rfl

/-! ## New books -/

/-- Where the entry of a new locate is made, memory for its book is granted. -/
def Granted (al : Alloc) (e : MatchingEngine) (locate : StockLocate) : Prop :=
  e.books.lookup locate = none →
    al.fails .bookMapNode = true ∨ (al.fails .bookObject = false ∧ al.fails .bookImpl = false)

/-- How a call may fail that makes a book: the engine is sound where memory for the book is granted. -/
def ThrowsUnless (granted : Prop) (fault : Fault) (e : MatchingEngine) : Prop :=
  fault = .badAlloc ∧ (granted → e.Sound)

theorem Throws.unless {granted : Prop} {fault : Fault} (h : Throws fault e) :
    ThrowsUnless granted fault e := ⟨h.1, fun _ => h.2⟩

/-- The entry of a new locate, with memory for its book or without. -/
theorem ensureBook_new (hlookup : e.books.lookup locate = none)
    (hnode : al.fails .bookMapNode = false) :
    (ensureBook al locate).run e =
      if al.fails .bookObject = true ∨ al.fails .bookImpl = true then
        .error .badAlloc { e with books := e.books.insert locate none }
      else .ok () { e with books := e.books.insert locate (some .empty) } := by
  set e₁ : MatchingEngine := { e with books := e.books.insert locate none } with he₁
  have hstart : (ensureBook al locate).run e = (al.request .bookObject >>= fun _ =>
      al.request .bookImpl >>= fun _ => modify fun e : MatchingEngine =>
        { e with books := e.books.insert locate (some .empty) }).run e₁ := by
    unfold ensureBook
    rw [run_get_bind]
    simp only [hlookup]
    rw [run_bind_ok (Alloc.request_ok hnode e)]
    rfl
  rw [hstart]
  cases hobject : al.fails .bookObject with
  | true => rw [run_bind_error (Alloc.request_error hobject e₁), if_pos (Or.inl rfl)]
  | false =>
    rw [run_bind_ok (Alloc.request_ok hobject e₁)]
    cases himpl : al.fails .bookImpl with
    | true => rw [run_bind_error (Alloc.request_error himpl e₁), if_pos (Or.inr rfl)]
    | false =>
      rw [run_bind_ok (Alloc.request_ok himpl e₁), if_neg (by simp)]
      show EStateM.Result.ok () { e with books := (e.books.insert locate none).insert locate _ } = _
      rw [Finmap.insert_insert]

theorem ensureBook_sound (he : e.Sound) (locate : StockLocate) (al : Alloc) :
    Triple (· = e) (ensureBook al locate) (fun _ => SoundAt locate)
      (ThrowsUnless (Granted al e locate)) := by
  refine Triple.of_run ?_
  rintro e rfl
  cases hlookup : e.books.lookup locate with
  | some entry =>
    obtain ⟨b, rfl, _⟩ := he locate entry hlookup
    refine Or.inl ⟨(), e, ?_, he, ?_⟩
    · unfold ensureBook
      rw [run_get_bind]
      simp only [hlookup]
      rfl
    · unfold findBook
      rw [hlookup]
      rfl
  | none =>
    cases hnode : al.fails .bookMapNode with
    | true =>
      refine Or.inr ⟨_, e, ?_, rfl, fun _ => he⟩
      unfold ensureBook
      rw [run_get_bind]
      simp only [hlookup]
      rw [run_bind_error (Alloc.request_error hnode e)]
    | false =>
      have hrun := ensureBook_new hlookup hnode
      by_cases hrefused : al.fails .bookObject = true ∨ al.fails .bookImpl = true
      · rw [if_pos hrefused] at hrun
        refine Or.inr ⟨_, _, hrun, rfl, fun hgranted => ?_⟩
        rcases hgranted hlookup with h | ⟨hobject, himpl⟩
        · rw [hnode] at h
          cases h
        · rw [hobject, himpl] at hrefused
          simp at hrefused
      · rw [if_neg hrefused] at hrun
        exact Or.inl ⟨_, _, hrun, he.setBook ⟨_, OrderBook.empty_represents⟩ locate⟩

/-- An order is added to the book of a locate, new or not, and the call goes on. -/
theorem addOrder_sound (he : e.Sound) {granted : Prop} (hgranted : granted → Granted al e locate)
    (orderId : OrderId) (side : Side) (price : Price) (quantity : Quantity) {α : Type}
    {rest : Bool → Engine α} (hrest : ∀ added, Triple Sound (rest added) (fun _ => Sound) Throws) :
    Triple (· = e) (ensureBook al locate >>= fun _ =>
      onBook locate (OrderBook.add al orderId side price quantity) >>= rest)
      (fun _ => Sound) (ThrowsUnless granted) := by
  refine ((ensureBook_sound he locate al).error fun _ _ he' =>
    ⟨he'.1, fun h => he'.2 (hgranted h)⟩).bind fun _ => ?_
  refine Triple.bind ((onBook_sound locate al (.add orderId side price quantity)).conseq
    (fun _ => id) (fun _ _ he' => he'.1) fun _ _ he' => he'.unless) fun added => ?_
  exact (hrest added).error fun _ _ he' => he'.unless

theorem applyAdd_sound (he : e.Sound) (al : Alloc) (locate : StockLocate) (reference : OrderId)
    (side : Side) (price : Price) (shares : Quantity) :
    Triple (· = e) (applyAdd al locate reference side price shares) (fun _ => Sound)
      (ThrowsUnless (e.canCreateOrder locate = true → Granted al e locate)) := by
  unfold applyAdd
  refine Triple.get.bind fun x => ?_
  refine Triple.ite (fun _ => ?_) fun hcan => ?_
  · refine (reject_sound locate).conseq ?_ (fun _ _ => id) fun _ _ he' => he'.unless
    rintro _ ⟨rfl, rfl⟩
    exact he
  · rw [Bool.not_eq_true, Bool.not_eq_false'] at hcan
    rintro s ⟨rfl, rfl⟩
    refine addOrder_sound he ?_ reference side price shares (fun added => ?_) s rfl
    · exact fun h => h hcan
    · exact Triple.ite (fun _ => reject_sound locate) fun _ => finish_sound fun _ => rfl

theorem submitLimit_sound (he : e.Sound) (al : Alloc) (locate : StockLocate) (orderId : OrderId)
    (side : Side) (limitPrice : Price) (quantity : Quantity) (output : List Fill) :
    Triple (· = e) (submitLimit al locate orderId side limitPrice quantity output) (fun _ => Sound)
      (ThrowsUnless (quantity ≠ 0 → e.canCreateOrder locate = true → Granted al e locate)) := by
  unfold submitLimit
  refine Triple.get.bind fun x => ?_
  refine Triple.ite (fun _ => Triple.pure ?_) fun hgood => ?_
  · rintro _ ⟨rfl, rfl⟩
    exact he
  refine Triple.bind ((matchOrder_sound he side limitPrice quantity true output).conseq
    (fun _ h => h.2) (fun _ _ => id) fun _ _ he' => he'.unless) ?_
  rintro ⟨result, output'⟩
  refine Triple.ite (fun _ => Triple.pure fun _ h => h.1) fun hresting => ?_
  refine Triple.get.bind fun y => ?_
  refine Triple.ite (fun _ => Triple.pure fun _ h => h.2.1) fun hcan => ?_
  rw [Bool.not_eq_true, Bool.not_eq_false'] at hcan
  rintro s ⟨rfl, hs, hbook⟩
  -- the entry is new only where there was no book before the match
  have hgranted : (quantity ≠ 0 → e.canCreateOrder locate = true → Granted al e locate) →
      Granted al s locate := by
    rcases hbook with hsome | ⟨rfl, _, _⟩
    · intro _ hnone
      unfold findBook at hsome
      rw [hnone] at hsome
      cases hsome
    · exact fun h => h (fun hzero => hgood (Or.inl hzero)) hcan
  refine addOrder_sound hs hgranted orderId side limitPrice result.resting (fun added => ?_) s rfl
  exact Triple.ite (fun _ => Triple.pure fun _ h => h) fun _ => finish_sound fun _ => rfl

/-! ## One call -/

end MatchingEngine

/-- Where a call makes the entry of a new locate, memory for its book is granted. -/
def EngineCall.BookGranted (al : Alloc) (e : MatchingEngine) : EngineCall → Prop
  | .apply event =>
    match event with
    | .addOrder message => e.canCreateOrder message.header.stockLocate = true →
      MatchingEngine.Granted al e message.header.stockLocate
    | .addAttributedOrder message => e.canCreateOrder message.header.stockLocate = true →
      MatchingEngine.Granted al e message.header.stockLocate
    | _ => True
  | .submitLimit locate _ _ _ quantity _ => quantity ≠ 0 → e.canCreateOrder locate = true →
    MatchingEngine.Granted al e locate
  | _ => True

namespace MatchingEngine

theorem apply_sound (he : e.Sound) (al : Alloc) (event : ItchEvent) :
    Triple (· = e) (apply al event) (fun _ => Sound)
      (ThrowsUnless ((EngineCall.apply event).BookGranted al e)) := by
  unfold apply
  set e₀ : MatchingEngine := { e with stats.messages := e.stats.messages + 1 } with he₀
  have hsound : e₀.Sound := he.of_books rfl
  refine Triple.bind (R := fun _ s => s = e₀) (Triple.modify fun s hs => by rw [hs]) fun _ => ?_
  have hother : ∀ {m : Engine ApplyResult}, Triple Sound m (fun _ => Sound) Throws →
      Triple (· = e₀) m (fun _ => Sound) (ThrowsUnless ((EngineCall.apply event).BookGranted al e)) :=
    fun hm => hm.conseq (fun _ h => h ▸ hsound) (fun _ _ => id) fun _ _ he' => he'.unless
  cases event with
  | addOrder message => exact applyAdd_sound hsound al _ _ _ _ _
  | addAttributedOrder message => exact applyAdd_sound hsound al _ _ _ _ _
  | orderExecuted message =>
    exact hother (applyReduction_sound _ _ _ (.execute message.orderReference message.executedShares)
      al _ _)
  | orderExecutedWithPrice message =>
    exact hother (applyReduction_sound _ _ _ (.execute message.orderReference message.executedShares)
      al _ _)
  | orderCancel message =>
    exact hother (applyReduction_sound _ _ _ (.cancel message.orderReference message.canceledShares)
      al _ _)
  | orderDelete message => exact hother (applyDelete_sound _ _)
  | orderReplace message => exact hother (applyReplace_sound al _ _ _ _ _)
  | _ => exact hother (finish_sound fun _ => rfl)

/-- **One call**, under any allocator. -/
theorem call_sound (he : e.Sound) (al : Alloc) (call : EngineCall) :
    Triple (· = e) (call.onEngine al) (fun _ => Sound) (ThrowsUnless (call.BookGranted al e)) := by
  cases call with
  | apply event =>
    exact Triple.bind (apply_sound he al event) fun _ => Triple.pure fun _ => id
  | submitLimit locate orderId side limitPrice quantity output =>
    exact Triple.bind (submitLimit_sound he al locate orderId side limitPrice quantity output)
      fun _ => Triple.pure fun _ => id
  | submitMarket locate side quantity output =>
    exact Triple.bind ((submitMarket_sound locate side quantity output).conseq (fun _ h => h ▸ he)
      (fun _ _ => id) fun _ _ he' => he'.unless) fun _ => Triple.pure fun _ => id
  | clear =>
    exact Triple.bind (Triple.modify (Q := fun _ => Sound) fun _ _ => new_sound _)
      fun _ => Triple.pure fun _ => id

/-! ## The missing book -/

/-- Without memory for the book its entry stays. -/
theorem ensureBook_missing (h : ¬Granted al e locate) :
    (ensureBook al locate).run e =
      .error .badAlloc { e with books := e.books.insert locate none } := by
  unfold Granted at h
  rw [Classical.not_imp, not_or, not_and_or, Bool.not_eq_true, Bool.not_eq_false,
    Bool.not_eq_false] at h
  obtain ⟨hlookup, hnode, hrefused⟩ := h
  rw [ensureBook_new hlookup hnode, if_pos hrefused]

theorem applyAdd_missing (hcan : e.canCreateOrder locate = true) (h : ¬Granted al e locate)
    (reference : OrderId) (side : Side) (price : Price) (shares : Quantity) :
    (applyAdd al locate reference side price shares).run e =
      .error .badAlloc { e with books := e.books.insert locate none } := by
  unfold applyAdd
  rw [run_get_bind, hcan, if_neg (by simp)]
  exact run_bind_error (ensureBook_missing h)

theorem submitLimit_missing {quantity : Quantity} (hquantity : quantity ≠ 0)
    (hcan : e.canCreateOrder locate = true) (h : ¬Granted al e locate) (orderId : OrderId)
    (side : Side) (limitPrice : Price) (output : List Fill) :
    (submitLimit al locate orderId side limitPrice quantity output).run e =
      .error .badAlloc { e with books := e.books.insert locate none } := by
  have hfind : e.findBook locate = none := by
    unfold findBook
    rw [(Classical.not_imp.mp h).1]
    rfl
  have hmatch : (matchOrder locate side limitPrice quantity true output).run e =
      .ok ({ resting := quantity }, output) e := by
    unfold matchOrder
    rw [run_get_bind, hfind]
    rfl
  unfold submitLimit
  rw [run_get_bind, hfind, if_neg (by simpa using hquantity), run_bind_ok hmatch]
  simp only
  rw [if_neg hquantity, run_get_bind, hcan, if_neg (by simp)]
  exact run_bind_error (ensureBook_missing h)

/-- A call that is refused memory for a new book leaves the locate mapped to none. -/
theorem call_missing {call : EngineCall} (h : ¬call.BookGranted al e) :
    ∃ e' locate, (call.onEngine al).run e = .error .badAlloc e' ∧
      e'.books.lookup locate = some none := by
  have hadd : ∀ {event : ItchEvent} {locate : StockLocate} {reference : OrderId} {side : Side}
      {price : Price} {shares : Quantity},
      (apply al event).run e = (applyAdd al locate reference side price shares).run
        { e with stats.messages := e.stats.messages + 1 } →
      ¬(e.canCreateOrder locate = true → Granted al e locate) →
      ∃ e' locate, ((EngineCall.apply event).onEngine al).run e = .error .badAlloc e' ∧
        e'.books.lookup locate = some none := by
    intro event locate reference side price shares hrun h
    obtain ⟨hcan, hgranted⟩ := Classical.not_imp.mp h
    have hmissing := applyAdd_missing (e := { e with stats.messages := e.stats.messages + 1 })
      hcan hgranted reference side price shares
    exact ⟨_, locate, run_bind_error (hrun.trans hmissing), Finmap.lookup_insert _⟩
  cases call with
  | apply event =>
    cases event with
    | addOrder message => exact hadd rfl h
    | addAttributedOrder message => exact hadd rfl h
    | _ => exact absurd trivial h
  | submitLimit locate orderId side limitPrice quantity output =>
    obtain ⟨hquantity, h⟩ := Classical.not_imp.mp h
    obtain ⟨hcan, hgranted⟩ := Classical.not_imp.mp h
    have hmissing := submitLimit_missing hquantity hcan hgranted orderId side limitPrice output
    exact ⟨_, locate, run_bind_error hmissing, Finmap.lookup_insert _⟩
  | submitMarket locate side quantity output => exact absurd trivial h
  | clear => exact absurd trivial h

/-! ## Runs -/

/-- The results of a run whose allocations may fail, none for a call that threw. -/
def attemptCalls : List (Alloc × EngineCall) → Engine (List (Option CallResult))
  | [] => return []
  | (al, call) :: calls => do
    let result ← attempt (call.onEngine al)
    return result :: (← attemptCalls calls)

/-- In every call of the run memory for a new book is granted where its entry is made. -/
def GrantedRun : MatchingEngine → List (Alloc × EngineCall) → Prop
  | _, [] => True
  | e, (al, call) :: calls => call.BookGranted al e ∧
    ∀ result e', (attempt (call.onEngine al)).run e = .ok result e' → GrantedRun e' calls

/-- Every locate in use has a book, the instruments are the locates with one, and a further call fails
in an allocation only. -/
structure NoMissingBook (e : MatchingEngine) : Prop where
  entry : ∀ locate, e.books.lookup locate ≠ some none
  count : e.instrumentCount = {locate | (e.findBook locate).isSome}.ncard
  access : ∀ al (call : EngineCall) fault e', (call.onEngine al).run e = .error fault e' →
    fault = .badAlloc

theorem Sound.noMissingBook (he : e.Sound) : NoMissingBook e where
  entry locate h := by
    obtain ⟨b, hb, _⟩ := he locate none h
    cases hb
  count := by
    have hkeys : {locate | (e.findBook locate).isSome} = (e.books.keys : Set StockLocate) := by
      ext locate
      rw [Finset.mem_coe, mem_keys_iff]
      show (e.findBook locate).isSome = true ↔ _
      cases hfind : e.findBook locate with
      | none =>
        rw [he.lookup_none hfind]
        exact Iff.rfl
      | some b =>
        unfold findBook at hfind
        rw [Option.join_eq_some_iff.mp hfind]
        exact Iff.rfl
    rw [hkeys, Set.ncard_coe_finset]
    rfl
  access al call _ _ run := ((call_sound he al call).of_error rfl run).1

/-- A call from a sound engine, attempted. -/
theorem attempt_sound (he : e.Sound) (al : Alloc) (call : EngineCall) :
    ∃ result e', (attempt (call.onEngine al)).run e = .ok result e' ∧
      (call.BookGranted al e → e'.Sound) ∧ (NoMissingBook e' ↔ call.BookGranted al e) := by
  have hcall := call_sound he al call
  by_cases hgranted : call.BookGranted al e
  · obtain ⟨result, e', run, he'⟩ : ∃ result e',
        (attempt (call.onEngine al)).run e = .ok result e' ∧ e'.Sound := by
      cases run : (call.onEngine al).run e with
      | ok result e' => exact ⟨_, e', attempt_ok run, hcall.of_ok rfl run⟩
      | error fault e' =>
        obtain ⟨rfl, he'⟩ := hcall.of_error rfl run
        exact ⟨_, e', attempt_badAlloc run, he' hgranted⟩
    exact ⟨result, e', run, fun _ => he', iff_of_true he'.noMissingBook hgranted⟩
  · obtain ⟨e', locate, run, hentry⟩ := call_missing hgranted
    exact ⟨none, e', attempt_badAlloc run, fun h => absurd h hgranted,
      iff_of_false (fun h => h.entry locate hentry) hgranted⟩

/-- **A run of attempts**, by induction on it. -/
theorem attemptCalls_sound (calls : List (Alloc × EngineCall)) :
    ∀ {e}, e.Sound → GrantedRun e calls →
      ∃ results e', (attemptCalls calls).run e = .ok results e' ∧ e'.Sound := by
  induction calls with
  | nil => exact fun he _ => ⟨_, _, rfl, he⟩
  | cons head calls ih =>
    obtain ⟨al, call⟩ := head
    intro e he hgranted
    obtain ⟨result, e₁, run₁, he₁, _⟩ := attempt_sound he al call
    obtain ⟨results, e₂, run₂, he₂⟩ := ih (he₁ hgranted.1) (hgranted.2 _ _ run₁)
    refine ⟨result :: results, e₂, ?_, he₂⟩
    unfold attemptCalls
    rw [run_bind_ok run₁, run_bind_ok run₂]
    rfl

/-- **No book is missing** after a run in which memory for a new book is granted wherever its entry is
made, and a further call keeps it so exactly if that is granted to it. -/
theorem granted_run_misses_no_book (limits : EngineLimits) (calls : List (Alloc × EngineCall))
    (hgranted : GrantedRun (new limits) calls) :
    ∃ results e, (attemptCalls calls).run (new limits) = .ok results e ∧ NoMissingBook e ∧
      ∀ al (call : EngineCall) result e', (attempt (call.onEngine al)).run e = .ok result e' →
        (NoMissingBook e' ↔ call.BookGranted al e) := by
  obtain ⟨results, e, run, he⟩ := attemptCalls_sound calls (new_sound limits) hgranted
  refine ⟨results, e, run, he.noMissingBook, fun al call result e' run' => ?_⟩
  obtain ⟨result', e'', run'', _, hiff⟩ := attempt_sound he al call
  rw [run'] at run''
  cases run''
  exact hiff

/-- An allocator that fails at one site. -/
def failing (site : AllocSite) : Alloc := { Alloc.reliable .bump with fails := fun s => s = site }

/-- A call that cannot allocate its price level. -/
theorem granted_run_misses_no_book_level : ∃ results e,
    (attemptCalls [(failing .priceLevel, .submitLimit 1 7 .Buy 100 5 [])]).run (new {}) =
      .ok results e ∧ NoMissingBook e := by
  obtain ⟨results, e, run, he, _⟩ := granted_run_misses_no_book {}
    [(failing .priceLevel, .submitLimit 1 7 .Buy 100 5 [])]
    ⟨fun _ _ _ => Or.inr ⟨rfl, rfl⟩, fun _ _ _ => trivial⟩
  exact ⟨results, e, run, he⟩

/-- Refused memory for its book, the first order of a locate leaves an instrument without a book, and
the next one follows a null pointer. -/
theorem refused_book_is_missing : ∃ e,
    (attemptCalls [(failing .bookObject, .submitLimit 1 7 .Buy 100 5 [])]).run (new {}) =
      .ok [none] e ∧ e.books.lookup 1 = some none ∧ e.instrumentCount = 1 ∧ e.findBook 1 = none ∧
    (∃ e', ((EngineCall.submitLimit 1 7 .Buy 100 5 []).onEngine (.reliable .bump)).run e =
      .error .badAccess e') ∧ ¬NoMissingBook e := by
  refine ⟨{ new {} with books := (∅ : Map StockLocate (Option OrderBook)).insert 1 none }, rfl, rfl, rfl,
    rfl, ⟨_, rfl⟩, fun h => h.entry 1 rfl⟩

end MatchingEngine

end Lob
