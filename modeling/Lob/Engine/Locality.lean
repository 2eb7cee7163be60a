import Lob.Engine.Matching
import Lob.Itch.Encoder

/-!
# One locate at a time

A call is addressed to one locate. It leaves the books of all the others as they are, and of its own
book it makes what the operation of the reference book makes.
-/

namespace Lob

open Basis

/-- The locate of an event; a skipped message may have none, and then counts as one of locate 0. -/
def ItchEvent.locate (event : ItchEvent) : StockLocate :=
  (Itch.header event).elim 0 MessageHeader.stockLocate

/-- The locate that a call is addressed to. -/
def EngineCall.locate : EngineCall → Option StockLocate
  | .apply event => some event.locate
  | .submitLimit locate _ _ _ _ _ => some locate
  | .submitMarket locate _ _ _ => some locate
  | .clear => none

namespace ReferenceEngine

variable {m m' : ReferenceEngine} {locate locate' : StockLocate}

/-! ## The other locates -/

/-- The engines have the same limits, and the same books except at `locate`. -/
structure SameElsewhere (locate : StockLocate) (m m' : ReferenceEngine) : Prop where
  limits : m'.limits = m.limits
  lookup : ∀ locate', locate' ≠ locate → m'.books.lookup locate' = m.books.lookup locate'

theorem SameElsewhere.refl (locate : StockLocate) (m : ReferenceEngine) : SameElsewhere locate m m :=
  ⟨rfl, fun _ _ => rfl⟩

theorem SameElsewhere.setBook (h : SameElsewhere locate m m') (r : ReferenceBook) :
    SameElsewhere locate m (m'.setBook locate r) where
  limits := h.limits
  lookup locate' hne := by
    rw [setBook_lookup, if_neg hne]
    exact h.lookup locate' hne

theorem SameElsewhere.book (h : SameElsewhere locate m m') (hne : locate' ≠ locate) :
    m'.book locate' = m.book locate' := by
  unfold ReferenceEngine.book
  rw [h.lookup _ hne]

theorem add_elsewhere (reference : OrderId) (side : Side) (price : Price) (shares : Quantity) :
    SameElsewhere locate m (m.add locate reference side price shares).2 := by
  unfold ReferenceEngine.add
  by_cases hcan : m.CanCreateOrder locate
  · rw [if_pos hcan]
    exact (SameElsewhere.refl locate m).setBook _
  · rw [if_neg hcan]
    exact SameElsewhere.refl locate m

theorem update_elsewhere (action : ApplyAction) (operation : ReferenceBook → Bool × ReferenceBook) :
    SameElsewhere locate m (m.update locate action operation).2 := by
  unfold ReferenceEngine.update
  cases m.books.lookup locate with
  | none => exact SameElsewhere.refl locate m
  | some r =>
    simp only
    split_ifs
    · exact (SameElsewhere.refl locate m).setBook _
    · exact SameElsewhere.refl locate m

theorem apply_elsewhere (event : ItchEvent) : SameElsewhere event.locate m (m.apply event).2 := by
  cases event with
  | addOrder message => exact add_elsewhere _ _ _ _
  | addAttributedOrder message => exact add_elsewhere _ _ _ _
  | orderExecuted message => exact update_elsewhere _ _
  | orderExecutedWithPrice message => exact update_elsewhere _ _
  | orderCancel message => exact update_elsewhere _ _
  | orderDelete message => exact update_elsewhere _ _
  | orderReplace message => exact update_elsewhere _ _
  | _ => exact SameElsewhere.refl _ m

theorem swept_elsewhere (side : Side) (reaches : Price → Bool) (quantity : Quantity) :
    SameElsewhere locate m (m.swept locate side reaches quantity) := by
  unfold ReferenceEngine.swept
  cases m.books.lookup locate with
  | none => exact SameElsewhere.refl locate m
  | some r => exact (SameElsewhere.refl locate m).setBook _

theorem submitMarket_elsewhere (side : Side) (quantity : Quantity) (output : List Fill) :
    SameElsewhere locate m (m.submitMarket locate side quantity output).2 := by
  unfold ReferenceEngine.submitMarket
  split_ifs
  · exact SameElsewhere.refl locate m
  · exact swept_elsewhere _ _ _

theorem submitLimit_elsewhere (orderId : OrderId) (side : Side) (limitPrice : Price)
    (quantity : Quantity) (output : List Fill) :
    SameElsewhere locate m (m.submitLimit locate orderId side limitPrice quantity output).2 := by
  unfold ReferenceEngine.submitLimit
  have hswept : SameElsewhere locate m
      (m.swept locate side (reach true side limitPrice) quantity) := swept_elsewhere _ _ _
  by_cases hbad : quantity = 0 ∨ (m.book locate).contains orderId = true
  · rw [if_pos hbad]
    exact SameElsewhere.refl locate m
  rw [if_neg hbad]
  simp only
  split_ifs
  · exact hswept
  · exact hswept.setBook _
  · exact hswept

/-- **A call leaves the other locates alone.** -/
theorem call_elsewhere {call : EngineCall} (h : call.locate = some locate) :
    SameElsewhere locate m (call.onReference m).2 := by
  cases call with
  | apply event =>
    cases h
    exact apply_elsewhere event
  | submitLimit locate orderId side limitPrice quantity output =>
    cases h
    exact submitLimit_elsewhere _ _ _ _ _
  | submitMarket locate side quantity output =>
    cases h
    exact submitMarket_elsewhere _ _ _
  | clear => cases h

/-! ## The book of the locate -/

/-- An event on a book: where there is no book it does what it does on an empty one. -/
theorem update_eq (m : ReferenceEngine) (locate : StockLocate) (action : ApplyAction)
    {operation : ReferenceBook → Bool × ReferenceBook}
    (hempty : operation .empty = (false, .empty))
    (hrefused : ∀ r, (operation r).1 = false → (operation r).2 = r) :
    (m.update locate action operation).1 =
        (if (operation (m.book locate)).1 then ⟨action, locate, true⟩ else rejected locate) ∧
      (m.update locate action operation).2.book locate = (operation (m.book locate)).2 := by
  unfold ReferenceEngine.update
  cases hm : m.books.lookup locate with
  | none =>
    rw [book_of_lookup_none hm, hempty]
    exact ⟨rfl, rfl⟩
  | some r =>
    rw [book_of_lookup hm]
    simp only
    cases hop : (operation r).1 with
    | false =>
      rw [hrefused r hop]
      exact ⟨rfl, book_of_lookup hm⟩
    | true => exact ⟨rfl, setBook_book⟩

theorem add_eq (reference : OrderId) (side : Side) (price : Price) (shares : Quantity)
    (hcan : m.CanCreateOrder locate) :
    (m.add locate reference side price shares).1 =
        (if ((m.book locate).add reference side price shares).1 then ⟨.Added, locate, true⟩
          else rejected locate) ∧
      (m.add locate reference side price shares).2.book locate =
        ((m.book locate).add reference side price shares).2 := by
  unfold ReferenceEngine.add
  rw [if_pos hcan]
  exact ⟨rfl, setBook_book⟩

/-- What becomes of a limit order: it is refused, or the sweep leaves nothing of it, or a remainder
that rests, or a remainder that the caps refuse. -/
inductive LimitOutcome (m : ReferenceEngine) (locate : StockLocate) (orderId : OrderId) (side : Side)
    (limitPrice : Price) (swept : MatchResult) (m' : ReferenceEngine) :
    MatchResult → ReferenceEngine → Prop
  | refused : LimitOutcome m locate orderId side limitPrice swept m' { accepted := false } m
  | filled (h : swept.resting = 0) :
      LimitOutcome m locate orderId side limitPrice swept m' swept m'
  | rests (h : swept.resting ≠ 0) (hcan : m'.CanCreateOrder locate)
      (hok : ((m'.book locate).add orderId side limitPrice swept.resting).1 = true) :
      LimitOutcome m locate orderId side limitPrice swept m' swept
        (m'.setBook locate ((m'.book locate).add orderId side limitPrice swept.resting).2)
  | capped (h : swept.resting ≠ 0) (hcan : ¬m'.CanCreateOrder locate) :
      LimitOutcome m locate orderId side limitPrice swept m'
        { swept with unfilled := swept.resting, resting := 0, accepted := false } m'

theorem submitLimit_cases (m : ReferenceEngine) (locate : StockLocate) (orderId : OrderId)
    (side : Side) (limitPrice : Price) (quantity : Quantity) (output : List Fill) :
    LimitOutcome m locate orderId side limitPrice
      (matchResult quantity output.length (m.taken locate side (reach true side limitPrice) quantity))
      (m.swept locate side (reach true side limitPrice) quantity)
      (m.submitLimit locate orderId side limitPrice quantity output).1.1
      (m.submitLimit locate orderId side limitPrice quantity output).2 := by
  unfold ReferenceEngine.submitLimit
  by_cases hbad : quantity = 0 ∨ (m.book locate).contains orderId = true
  · rw [if_pos hbad]
    exact .refused
  rw [if_neg hbad]
  simp only
  by_cases hdone : (matchResult quantity output.length
      (m.taken locate side (reach true side limitPrice) quantity)).resting = 0
  · rw [if_pos hdone]
    exact .filled hdone
  rw [if_neg hdone]
  by_cases hcan : (m.swept locate side (reach true side limitPrice) quantity).CanCreateOrder locate
  · rw [if_pos hcan]
    refine .rests hdone hcan ?_
    unfold ReferenceBook.add
    rw [if_neg]
    rintro (hz | hc)
    · exact hdone hz
    · exact hbad (Or.inr (MatchingEngine.contains_swept hc))
  · rw [if_neg hcan]
    exact .capped hdone hcan

end ReferenceEngine

end Lob
