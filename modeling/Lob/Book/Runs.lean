import Lob.Book.Observations

/-!
# Runs of calls

A run is any finite sequence of calls with any arguments, from the empty book, with allocations that
succeed; where each call places its cells is arbitrary.
-/

namespace Lob

open Basis

inductive Call where
  | add (id : OrderId) (side : Side) (price : Price) (quantity : Quantity)
  | cancel (id : OrderId) (quantity : Quantity)
  | execute (id : OrderId) (quantity : Quantity)
  | erase (id : OrderId)
  | modify (id : OrderId) (newPrice : Price) (newQuantity : Quantity)
  | replace (oldId newId : OrderId) (newPrice : Price) (newQuantity : Quantity)
  | clear

/-- The call on the book; `clear` has no result, and `true` stands for it. -/
def Call.onBook (al : Alloc) : Call → Book Bool
  | .add id side price quantity => OrderBook.add al id side price quantity
  | .cancel id quantity => OrderBook.cancel id quantity
  | .execute id quantity => OrderBook.execute id quantity
  | .erase id => OrderBook.erase id
  | .modify id newPrice newQuantity => OrderBook.modify al id newPrice newQuantity
  | .replace oldId newId newPrice newQuantity =>
    OrderBook.replace al oldId newId newPrice newQuantity
  | .clear => do OrderBook.clear; return true

def Call.onReference (r : ReferenceBook) : Call → Bool × ReferenceBook
  | .add id side price quantity => r.add id side price quantity
  | .cancel id quantity => r.cancel id quantity
  | .execute id quantity => r.execute id quantity
  | .erase id => r.erase id
  | .modify id newPrice newQuantity => r.modify id newPrice newQuantity
  | .replace oldId newId newPrice newQuantity => r.replace oldId newId newPrice newQuantity
  | .clear => (true, .empty)

/-- The results of a run, each call with a placement of its own. -/
def OrderBook.runCalls : List (Placement × Call) → Book (List Bool)
  | [] => return []
  | (place, call) :: calls => do
    let result ← call.onBook (.reliable place)
    return result :: (← runCalls calls)

def ReferenceBook.runCalls (r : ReferenceBook) : List Call → List Bool × ReferenceBook
  | [] => ([], r)
  | call :: calls =>
    let (results, r') := (call.onReference r).2.runCalls calls
    ((call.onReference r).1 :: results, r')

namespace OrderBook

variable {b : OrderBook} {r : ReferenceBook}

/-- **One call**, under any allocator. -/
theorem call_simulates (al : Alloc) (call : Call) (h : Represents b r) :
    Returns (call.onBook al) b r (call.onReference r) ∨ Throws al (call.onBook al) b r := by
  cases call with
  | add id side price quantity => exact add_simulates al id side price quantity h
  | cancel id quantity => exact Or.inl (cancel_returns id quantity h)
  | execute id quantity => exact Or.inl (execute_returns id quantity h)
  | erase id => exact Or.inl (erase_returns id h)
  | modify id newPrice newQuantity => exact modify_simulates al id newPrice newQuantity h
  | replace oldId newId newPrice newQuantity =>
    exact replace_simulates al oldId newId newPrice newQuantity h
  | clear =>
    exact Or.inl ⟨empty, rfl, empty_represents, fun _ => empty_tight, fun e => by cases e⟩

/-- One call whose allocations succeed. -/
theorem call_returns (place : Placement) (call : Call) (h : Represents b r) :
    Returns (call.onBook (.reliable place)) b r (call.onReference r) :=
  returns_of_reliable (call_simulates _ call h)

/-- **A run of calls**, by induction on it. -/
theorem runCalls_simulates (calls : List (Placement × Call)) :
    ∀ {b r}, Represents b r →
      ∃ b', (runCalls calls).run b = .ok (r.runCalls (calls.map Prod.snd)).1 b' ∧
        Represents b' (r.runCalls (calls.map Prod.snd)).2 ∧
        (Tight b r → Tight b' (r.runCalls (calls.map Prod.snd)).2) := by
  induction calls with
  | nil => exact fun h => ⟨_, rfl, h, id⟩
  | cons head calls ih =>
    obtain ⟨place, call⟩ := head
    intro b r h
    obtain ⟨b₁, run₁, h₁, ht₁, _⟩ := call_returns place call h
    obtain ⟨b₂, run₂, h₂, ht₂⟩ := ih h₁
    refine ⟨b₂, ?_, h₂, fun ht => ht₂ (ht₁ ht)⟩
    unfold runCalls
    rw [run_bind_ok run₁, run_bind_ok run₂]
    rfl

/-- **The order book refines the reference book.** Every run returns what the reference book returns,
the two agree in every observation afterwards, and a further call that returns false leaves the book
as it is. -/
theorem book_refines_reference (calls : List (Placement × Call)) :
    ∃ b, (runCalls calls).run empty =
        .ok (ReferenceBook.empty.runCalls (calls.map Prod.snd)).1 b ∧
      Observes b (ReferenceBook.empty.runCalls (calls.map Prod.snd)).2 ∧
      ∀ place (call : Call) b', (call.onBook (.reliable place)).run b = .ok false b' → b' = b := by
  obtain ⟨b, run, h, _⟩ := runCalls_simulates calls empty_represents
  refine ⟨b, run, h.observes, fun place call b' run' => ?_⟩
  obtain ⟨b'', run'', _, _, hsame⟩ := call_returns place call h
  rw [run''] at run'
  obtain ⟨hres, rfl⟩ : (call.onReference _).1 = false ∧ b'' = b' := by
    simpa using run'
  exact hsame hres

end OrderBook

end Lob
