import Lob.Engine.Runs
import Lob.Book.Priority

/-!
# The priority of a replaced order

An accepted `U` event moves the order to the tail of its new level exactly if it changes the
reference, the price, or raises the shares; the rest of every queue keeps its order.
-/

namespace Lob

open Basis ReferenceEngine ReferenceBook

namespace MatchingEngine

/-- The new reference rests last at its price, the other orders keep their places, and the original
reference is gone. -/
structure LosesPriority (e e' : MatchingEngine) (message : OrderReplace) (side : Side) : Prop where
  order : e'.order message.header.stockLocate message.newOrderReference =
    some ⟨message.newOrderReference, side, message.price, message.shares⟩
  last : (e'.fifo message.header.stockLocate side message.price).getLast? =
    some message.newOrderReference
  others : ∀ side' price',
    without (e'.fifo message.header.stockLocate side' price') message.newOrderReference =
      without (e.fifo message.header.stockLocate side' price') message.originalOrderReference
  elsewhere : ∀ locate, locate ≠ message.header.stockLocate → ∀ side' price',
    e'.fifo locate side' price' = e.fifo locate side' price'
  gone : message.originalOrderReference ≠ message.newOrderReference →
    e'.order message.header.stockLocate message.originalOrderReference = none

/-- The replacement is not an amendment in place, or the order is the last one already. -/
def Requeues (e : MatchingEngine) (message : OrderReplace) (original : OrderView) : Prop :=
  message.originalOrderReference ≠ message.newOrderReference ∨ message.price ≠ original.price ∨
    original.quantity < message.shares ∨
    (e.fifo message.header.stockLocate original.side original.price).getLast? =
      some message.originalOrderReference

variable {limits : EngineLimits} {e e' : MatchingEngine} {m : ReferenceEngine}

theorem update_accepted {locate : StockLocate} {action : ApplyAction}
    {operation : ReferenceBook → Bool × ReferenceBook} (hne : action ≠ .Rejected)
    (hresult : (m.update locate action operation).1.action = action) :
    ∃ r, m.books.lookup locate = some r ∧ (operation r).1 = true ∧
      (m.update locate action operation).2 = m.setBook locate (operation r).2 := by
  unfold ReferenceEngine.update at hresult ⊢
  cases hm : m.books.lookup locate with
  | none =>
    rw [hm] at hresult
    exact absurd hresult.symm hne
  | some r =>
    rw [hm] at hresult
    simp only at hresult ⊢
    by_cases hop : (operation r).1 = true
    · exact ⟨r, rfl, hop, by rw [if_pos hop]⟩
    · rw [if_neg hop] at hresult
      exact absurd hresult.symm hne

/-- **Replacing.** In every reachable engine an accepted `U` event loses priority exactly if it changes
the reference or the price, raises the shares, or finds the order last already. -/
theorem replace_loses_priority (h : Reachable limits e) (place : Placement)
    (message : OrderReplace) {result : ApplyResult}
    (run : (apply (.reliable place) (.orderReplace message)).run e = .ok result e')
    (hresult : result.action = .Replaced) :
    ∃ original, e.order message.header.stockLocate message.originalOrderReference = some original ∧
      (LosesPriority e e' message original.side ↔ e.Requeues message original) := by
  obtain ⟨m, h, _⟩ := h.represents
  obtain ⟨e₁, run₁, h₁, _⟩ := apply_simulates h place (.orderReplace message)
  rw [run] at run₁
  cases run₁
  obtain ⟨r, hm, hok, hm'⟩ := update_accepted (by simp) hresult
  obtain ⟨order, hid⟩ := replace_accepted hok
  have hwf := h.wf message.header.stockLocate
  rw [book_of_lookup hm] at hwf
  change Represents e' (m.update _ _ _).2 at h₁
  rw [hm'] at h₁
  have hfifo : ∀ side price, e.fifo message.header.stockLocate side price = r.levels side price := by
    intro side price
    rw [h.fifo_eq, book_of_lookup hm]
  have hfifo' : ∀ side price, e'.fifo message.header.stockLocate side price =
      (r.replace message.originalOrderReference message.newOrderReference message.price
        message.shares).2.levels side price := by
    intro side price
    rw [h₁.fifo_eq, setBook_book]
  have horder' : ∀ id, e'.order message.header.stockLocate id =
      (r.replace message.originalOrderReference message.newOrderReference message.price
        message.shares).2.order id := by
    intro id
    rw [h₁.order_eq, setBook_book]
  have helsewhere : ∀ locate, locate ≠ message.header.stockLocate → ∀ side price,
      e'.fifo locate side price = e.fifo locate side price := by
    intro locate hne side price
    rw [h.fifo_eq, h₁.fifo_eq]
    unfold ReferenceEngine.book
    rw [setBook_lookup, if_neg hne]
  obtain ⟨hnew, hgone⟩ := replace_orders hid hok
  refine ⟨⟨_, order.side, order.price, order.quantity⟩,
    by rw [h.order_eq, book_of_lookup hm, ReferenceBook.order_eq hid], ?_⟩
  by_cases hin : InPlace order message.originalOrderReference message.newOrderReference
      message.price message.shares
  · have hlevels := fun side price => (hwf.replace_levels hid hok side price).2 hin
    obtain ⟨hsame, hprice, hshares⟩ := hin
    constructor
    · intro hlose
      refine Or.inr (Or.inr (Or.inr ?_))
      have hlast := hlose.last
      rw [hfifo', hlevels, ← hfifo, hprice, ← hsame] at hlast
      exact hlast
    · rintro (hne | hne | hgt | hlast)
      · exact absurd hsame hne
      · exact absurd hprice hne
      · exact absurd hshares (BitVec.not_le.mpr hgt)
      · refine ⟨by rw [horder']; exact hnew, ?_, fun side price => ?_, helsewhere,
          fun hne => absurd hsame hne⟩
        · rw [hfifo', hlevels, ← hfifo, hprice, ← hsame]
          exact hlast
        · rw [hfifo', hlevels, hfifo, hsame]
  · have hlevels := fun side price => (hwf.replace_levels hid hok side price).1 hin
    refine ⟨fun _ => ?_, fun _ => ⟨by rw [horder']; exact hnew, ?_, fun side price => ?_,
      helsewhere, fun hne => by rw [horder']; exact hgone hne⟩⟩
    · unfold InPlace at hin
      rw [not_and_or, not_and_or, BitVec.not_le] at hin
      rcases hin with hne | hne | hgt
      · exact Or.inl hne
      · exact Or.inr (Or.inl hne)
      · exact Or.inr (Or.inr (Or.inl hgt))
    · rw [hfifo', hlevels, if_pos ⟨rfl, rfl⟩, List.getLast?_concat]
    · rw [hfifo', hlevels, hwf.without_replaced hid hok, hfifo]

/-- The older of two bids, replaced under a new reference. -/
theorem replace_loses_priority_new_reference : ∃ e e' : MatchingEngine,
    Reachable {} e ∧ e.fifo 1 .Buy 100 = [7, 8] ∧
      (apply (.reliable .bump) (.orderReplace ⟨⟨1, 0, 0⟩, 7, 9, 5, 100⟩)).run e =
        .ok ⟨.Replaced, 1, true⟩ e' ∧
      LosesPriority e e' ⟨⟨1, 0, 0⟩, 7, 9, 5, 100⟩ .Buy := by
  obtain ⟨e, hreach, h⟩ := exists_reachable {}
    [.apply (.addOrder ⟨⟨1, 0, 0⟩, 7, .Buy, 10, Vector.replicate 8 65, 100⟩),
      .apply (.addOrder ⟨⟨1, 0, 0⟩, 8, .Buy, 10, Vector.replicate 8 65, 100⟩)]
  obtain ⟨e', run, _⟩ := apply_simulates h .bump (.orderReplace ⟨⟨1, 0, 0⟩, 7, 9, 5, 100⟩)
  obtain ⟨original, horder, hiff⟩ := replace_loses_priority hreach _ _ run (by decide)
  rw [h.order_eq] at horder
  cases horder
  refine ⟨e, e', hreach, by rw [h.fifo_eq]; decide, run, hiff.mpr (Or.inl (by decide))⟩

/-- The older of two bids, replaced under its own reference with fewer shares, stays ahead. -/
theorem replace_keeps_priority : ∃ e e' : MatchingEngine,
    Reachable {} e ∧ e.fifo 1 .Buy 100 = [7, 8] ∧
      (apply (.reliable .bump) (.orderReplace ⟨⟨1, 0, 0⟩, 7, 7, 5, 100⟩)).run e =
        .ok ⟨.Replaced, 1, true⟩ e' ∧
      e'.fifo 1 .Buy 100 = [7, 8] ∧ ¬LosesPriority e e' ⟨⟨1, 0, 0⟩, 7, 7, 5, 100⟩ .Buy := by
  obtain ⟨e, hreach, h⟩ := exists_reachable {}
    [.apply (.addOrder ⟨⟨1, 0, 0⟩, 7, .Buy, 10, Vector.replicate 8 65, 100⟩),
      .apply (.addOrder ⟨⟨1, 0, 0⟩, 8, .Buy, 10, Vector.replicate 8 65, 100⟩)]
  obtain ⟨e', run, h', _⟩ := apply_simulates h .bump (.orderReplace ⟨⟨1, 0, 0⟩, 7, 7, 5, 100⟩)
  have hfifo : e'.fifo 1 .Buy 100 = [7, 8] := by
    rw [h'.fifo_eq]
    decide
  refine ⟨e, e', hreach, by rw [h.fifo_eq]; decide, run, hfifo, fun hlose => ?_⟩
  have hlast := hlose.last
  change (e'.fifo 1 .Buy 100).getLast? = some 7 at hlast
  rw [hfifo] at hlast
  revert hlast
  decide

end MatchingEngine

end Lob
