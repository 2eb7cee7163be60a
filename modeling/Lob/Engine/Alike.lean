import Lob.Basis.Related
import Lob.Book.Runs
import Lob.Engine.MatchingEngine

/-!
# Engines with the same books

A call that fails in an allocation may leave empty levels and unmasked tiers in a book. Two engines are
alike where their books represent the same reference books, with or without such remains. What one of
them returns the other returns as well, and they stay alike.
-/

namespace Lob

open Basis

namespace OrderBook

variable {b b' : OrderBook}

/-- Books that represent the same reference book. -/
def Alike (b b' : OrderBook) : Prop := ∃ r, b.Represents r ∧ b'.Represents r

theorem Alike.same (h : Alike b b') : SameObservations b b' := by
  obtain ⟨r, h, h'⟩ := h
  exact h.observes.same h'.observes

theorem Alike.oppositeBest (h : Alike b b') (side : Side) :
    MatchingEngine.oppositeBest side b = MatchingEngine.oppositeBest side b' := by
  cases side with
  | Buy => exact h.same.bestAsk.symm
  | Sell => exact h.same.bestBid.symm

end OrderBook

namespace MatchingEngine

/-! ## Engines with the same books -/

/-- Engines whose books represent the same reference books. -/
structure Alike (e t : MatchingEngine) : Prop where
  limits : e.limits = t.limits
  restingOrderCount : e.restingOrderCount = t.restingOrderCount
  stats : e.stats = t.stats
  entry : ∀ locate, (e.books.lookup locate = none ∧ t.books.lookup locate = none) ∨
    ∃ b b', e.books.lookup locate = some (some b) ∧ t.books.lookup locate = some (some b') ∧ b.Alike b'

variable {e e' t t' : MatchingEngine} {locate : StockLocate} {b b' : OrderBook}

theorem Alike.of_books (h : Alike e t) (he : e'.books = e.books) (ht : t'.books = t.books)
    (hlimits : e'.limits = t'.limits) (hcount : e'.restingOrderCount = t'.restingOrderCount)
    (hstats : e'.stats = t'.stats) : Alike e' t' := by
  refine ⟨hlimits, hcount, hstats, ?_⟩
  rw [he, ht]
  exact h.entry

theorem Alike.setBook (h : Alike e t) (hb : b.Alike b') (locate : StockLocate) :
    Alike { e with books := e.books.insert locate (some b) }
      { t with books := t.books.insert locate (some b') } := by
  refine ⟨h.limits, h.restingOrderCount, h.stats, fun locate' => ?_⟩
  rw [lookup_insert_ite, lookup_insert_ite]
  split_ifs
  · exact Or.inr ⟨b, b', rfl, rfl, hb⟩
  · exact h.entry locate'

theorem Alike.findBook (h : Alike e t) (locate : StockLocate) :
    (e.findBook locate = none ∧ t.findBook locate = none) ∨
      ∃ b b', e.findBook locate = some b ∧ t.findBook locate = some b' ∧ b.Alike b' := by
  unfold MatchingEngine.findBook
  rcases h.entry locate with ⟨he, ht⟩ | ⟨b, b', he, ht, hb⟩
  · rw [he, ht]
    exact Or.inl ⟨rfl, rfl⟩
  · rw [he, ht]
    exact Or.inr ⟨b, b', rfl, rfl, hb⟩

theorem Alike.canCreateOrder (h : Alike e t) (locate : StockLocate) :
    e.canCreateOrder locate = t.canCreateOrder locate := by
  have hsize : e.instrumentCount = t.instrumentCount := by
    refine size_congr fun locate => ?_
    rcases h.entry locate with ⟨he, ht⟩ | ⟨_, _, he, ht, _⟩
    · rw [he, ht]
    · rw [he, ht]
      rfl
  have hbook : (e.findBook locate).isSome = (t.findBook locate).isSome := by
    rcases h.findBook locate with ⟨he, ht⟩ | ⟨_, _, he, ht, _⟩
    · rw [he, ht]
    · rw [he, ht]
      rfl
  unfold MatchingEngine.canCreateOrder
  rw [h.limits, h.restingOrderCount, hsize, hbook]

theorem Alike.contains (h : Alike e t) (locate : StockLocate) (orderId : OrderId) :
    (e.findBook locate).any (fun book => book.contains orderId) =
      (t.findBook locate).any (fun book => book.contains orderId) := by
  rcases h.findBook locate with ⟨he, ht⟩ | ⟨b, b', he, ht, hb⟩
  · rw [he, ht]
  · rw [he, ht]
    exact (hb.same.contains orderId).symm

theorem Alike.findOrder (h : Alike e t) (locate : StockLocate) (reference : OrderId) :
    e.findOrder locate reference = t.findOrder locate reference := by
  unfold MatchingEngine.findOrder
  rcases h.findBook locate with ⟨he, ht⟩ | ⟨b, b', he, ht, hb⟩
  · rw [he, ht]
  · rw [he, ht]
    exact (hb.same.order reference).symm

/-! ## Operations on a book -/

/-- An operation that fails leaves a book that represents what it did. -/
theorem onBook_follows (al : Alloc) (place : Placement) (call : Call) :
    Follows (fun e t' => Alike e t' ∧ t' = t) (onBook locate (call.onBook al))
      (onBook locate (call.onBook (.reliable place))) (fun _ => Alike)
      fun fault e => fault = .badAlloc ∧ (∃ site, al.fails site = true) ∧ Alike e t := by
  refine Follows.focus ?_
  rintro e _ ⟨hlike, rfl⟩ b' hview
  rcases hlike.entry locate with ⟨_, ht⟩ | ⟨b, b₁, he, ht, hb⟩
  · unfold MatchingEngine.findBook at hview
    rw [ht] at hview
    cases hview
  unfold MatchingEngine.findBook at hview ⊢
  rw [ht] at hview
  cases hview
  obtain ⟨r, hb, hb'⟩ := hb
  refine ⟨b, by rw [he]; rfl, ?_⟩
  rintro _ _ ⟨rfl, rfl⟩ a c' run'
  obtain ⟨c₁, run₁, hc', _⟩ := OrderBook.call_returns place call hb'
  rw [run₁] at run'
  cases run'
  rcases OrderBook.call_simulates al call hb with ⟨c, run, hc, _⟩ | ⟨c, run, hc, hsite⟩
  · exact Or.inl ⟨c, run, hlike.setBook ⟨_, hc, hc'⟩ locate⟩
  · have hsame := hlike.setBook ⟨r, hc, hb'⟩ locate
    rw [insert_self ht] at hsame
    exact Or.inr ⟨_, c, run, rfl, hsite, hsame⟩

section Reliable

variable {E : Fault → MatchingEngine → Prop} {α : Type}

/-- An operation that allocates nothing. -/
theorem onBook_keeps (place : Placement) (call : Call) :
    Follows Alike (onBook locate (call.onBook (.reliable place)))
      (onBook locate (call.onBook (.reliable place))) (fun _ => Alike) E := by
  intro e t h a t' run
  rcases onBook_follows (t := t) (.reliable place) place call e t ⟨h, rfl⟩ a t' run with
    hreturns | ⟨_, _, _, _, ⟨_, hsite⟩, _⟩
  · exact Or.inl hreturns
  · cases hsite

theorem readBook_keeps {f : OrderBook → Except Fault α} (hf : ∀ b b', b.Alike b' → f b = f b') :
    Follows Alike (readBook locate f) (readBook locate f) (fun _ => Alike) E := by
  refine Follows.observe (fun e t h => ?_) fun _ _ _ => id
  rcases h.findBook locate with ⟨he, ht⟩ | ⟨b, b', he, ht, hb⟩
  · rw [he, ht]
  · rw [he, ht, deref_some, deref_some, except_ok_bind, except_ok_bind, hf b b' hb]

/-! ## `apply` -/

/-- The end of a call: counters change, and it returns. -/
theorem finish_keeps {f : MatchingEngine → MatchingEngine} {a : α}
    (hf : ∀ e t, Alike e t → Alike (f e) (f t)) :
    Follows Alike (do modify f; return a : Engine α) (do modify f; return a : Engine α)
      (fun _ => Alike) E :=
  Follows.bind (Follows.modify (S := fun _ => Alike) hf) fun _ => Follows.pure fun _ _ => id

theorem reject_keeps (locate : StockLocate) :
    Follows Alike (reject locate) (reject locate) (fun _ => Alike) E :=
  finish_keeps fun _ _ h => h.of_books rfl rfl h.limits h.restingOrderCount (by rw [h.stats])

theorem ignore_keeps (locate : StockLocate) :
    Follows Alike (ignore locate) (ignore locate) (fun _ => Alike) E :=
  finish_keeps fun _ _ h => h.of_books rfl rfl h.limits h.restingOrderCount (by rw [h.stats])

theorem applyReduction_keeps (locate : StockLocate) (reference : OrderId) (shares : Quantity)
    (place : Placement) (call : Call) (tally : ReplayStats → ReplayStats) (action : ApplyAction) :
    Follows Alike
      (applyReduction locate reference shares (call.onBook (.reliable place)) tally action)
      (applyReduction locate reference shares (call.onBook (.reliable place)) tally action)
      (fun _ => Alike) E := by
  unfold applyReduction
  refine Follows.bind (Follows.observe (fun e t h => h.findOrder locate reference)
    fun _ _ _ => id) fun order => ?_
  cases order with
  | none => exact reject_keeps locate
  | some order =>
    refine Follows.bind (onBook_keeps place call) fun changed => ?_
    refine Follows.ite Iff.rfl (fun _ => reject_keeps locate) fun _ => ?_
    have hcount : ∀ e t : MatchingEngine, Alike e t →
        Alike { e with restingOrderCount := e.restingOrderCount - 1 }
          { t with restingOrderCount := t.restingOrderCount - 1 } :=
      fun e t h => h.of_books rfl rfl h.limits (by rw [h.restingOrderCount]) h.stats
    have hfinish := finish_keeps (E := E) (a := (⟨action, locate, true⟩ : ApplyResult))
      (f := fun e => { e with stats := tally e.stats }) fun e t h =>
        h.of_books rfl rfl h.limits h.restingOrderCount (by rw [h.stats])
    refine Follows.ite Iff.rfl (fun _ => ?_) fun _ => hfinish
    exact Follows.bind (Follows.modify (S := fun _ => Alike) hcount) fun _ => hfinish

theorem applyDelete_keeps (locate : StockLocate) (reference : OrderId) :
    Follows Alike (applyDelete locate reference) (applyDelete locate reference) (fun _ => Alike) E := by
  unfold applyDelete
  refine Follows.get_bind fun e t h => ?_
  have hstart : Follows (fun e' t' => e' = e ∧ t' = t) (reject locate) (reject locate)
      (fun _ => Alike) E :=
    (reject_keeps locate).pre fun _ _ hsame => by rwa [hsame.1, hsame.2]
  rcases h.findBook locate with ⟨he, ht⟩ | ⟨b, b', he, ht, _⟩
  · rw [he, ht]
    exact hstart
  · rw [he, ht]
    refine Follows.bind ((onBook_keeps .bump (.erase reference)).pre fun _ _ hsame => ?_)
      fun changed => ?_
    · rwa [hsame.1, hsame.2]
    refine Follows.ite Iff.rfl (fun _ => reject_keeps locate) fun _ => ?_
    exact finish_keeps fun e t h =>
      h.of_books rfl rfl h.limits (by rw [h.restingOrderCount]) (by rw [h.stats])

/-! ## Matching -/

theorem matchLoop_keeps (locate : StockLocate) (side : Side) (limitPrice : Price) (hasLimit : Bool)
    (fuel : ℕ) : ∀ (remaining : Quantity) (result : MatchResult) (output : List Fill),
      Follows Alike (matchLoop locate side limitPrice hasLimit fuel remaining result output)
        (matchLoop locate side limitPrice hasLimit fuel remaining result output) (fun _ => Alike) E := by
  induction fuel with
  | zero =>
    intro remaining result output
    unfold matchLoop
    refine Follows.ite Iff.rfl (fun _ => Follows.pure fun _ _ => id) fun _ => ?_
    intro e t h a t' run
    cases run
  | succ fuel ih =>
    intro remaining result output
    unfold matchLoop
    refine Follows.ite Iff.rfl (fun _ => Follows.pure fun _ _ => id) fun _ => ?_
    refine Follows.bind (readBook_keeps fun b b' hb => hb.oppositeBest side) fun best => ?_
    cases best with
    | none => exact Follows.pure fun _ _ => id
    | some price =>
      refine Follows.ite Iff.rfl (fun _ => Follows.pure fun _ _ => id) fun _ => ?_
      refine Follows.bind (readBook_keeps fun b b' hb => (hb.same.frontOrder _ _).symm) fun front => ?_
      cases front with
      | none => exact Follows.pure fun _ _ => id
      | some v =>
        refine Follows.bind (onBook_keeps .bump (.execute v.orderId _)) fun executed => ?_
        refine Follows.ite Iff.rfl (fun _ => Follows.pure fun _ _ => id) fun _ => ?_
        refine Follows.ite Iff.rfl (fun _ => ?_) fun _ => ih _ _ _
        refine Follows.bind (Follows.modify (S := fun _ => Alike) fun e t h => ?_) fun _ => ih _ _ _
        exact h.of_books rfl rfl h.limits (by rw [h.restingOrderCount]) h.stats

theorem matchOrder_keeps (locate : StockLocate) (side : Side) (limitPrice : Price)
    (quantity : Quantity) (hasLimit : Bool) (output : List Fill) :
    Follows Alike (matchOrder locate side limitPrice quantity hasLimit output)
      (matchOrder locate side limitPrice quantity hasLimit output) (fun _ => Alike) E := by
  unfold matchOrder
  refine Follows.get_bind fun e t h => ?_
  rcases h.findBook locate with ⟨he, ht⟩ | ⟨b, b', he, ht, _⟩
  · rw [he, ht]
    exact Follows.pure fun _ _ hsame => by rwa [hsame.1, hsame.2]
  · rw [he, ht]
    exact (matchLoop_keeps _ _ _ _ _ _ _ _).pre fun _ _ hsame => by rwa [hsame.1, hsame.2]

theorem submitMarket_keeps (locate : StockLocate) (side : Side) (quantity : Quantity)
    (output : List Fill) :
    Follows Alike (submitMarket locate side quantity output)
      (submitMarket locate side quantity output) (fun _ => Alike) E := by
  unfold submitMarket
  refine Follows.ite Iff.rfl (fun _ => Follows.pure fun _ _ => id) fun _ => ?_
  exact Follows.bind (matchOrder_keeps _ _ _ _ _ _) fun _ => Follows.pure fun _ _ => id

end Reliable

end MatchingEngine

end Lob
