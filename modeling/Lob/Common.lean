import Mathlib.Order.Lattice.Nat
import Mathlib.Data.BitVec
import Lob.Basis.Exec
import Lob.Basis.Maps

/-!
# Common types, allocation and faults

Fixed-width integers are `BitVec`s of the source's widths. Every `new` of the source is an
allocation *site*: an `Alloc` says which sites of one call fail and where the others place their
cells, so that a call can be run under any outcome of the allocator.
-/

namespace Lob

abbrev Byte := BitVec 8

/-- ITCH price: 4 implied decimal places. -/
abbrev Price := BitVec 32
abbrev Quantity := BitVec 32
/-- ITCH order reference number. -/
abbrev OrderId := BitVec 64
abbrev MatchId := BitVec 64
abbrev StockLocate := BitVec 16
abbrev TimestampNs := BitVec 64

inductive Side where
  | Buy
  | Sell
  deriving DecidableEq

def opposite : Side → Side
  | .Buy => .Sell
  | .Sell => .Buy

theorem opposite_ne (side : Side) : opposite side ≠ side := by
  cases side <;> simp [opposite]

/-- How a call can end without returning: an exception, an access through a null or dangling
pointer, or a loop of the model cut short. -/
inductive Fault where
  | badAlloc
  | badAccess
  | outOfFuel
  deriving DecidableEq

/-- Follows a pointer or an owning reference. -/
def deref {α : Type} : Option α → Except Fault α
  | some a => .ok a
  | none => .error .badAccess

@[simp] theorem deref_some {α : Type} (a : α) : deref (some a) = .ok a := rfl

/-- The places of the source that allocate. -/
inductive AllocSite where
  | priceLevel
  | levelMapNode
  | orderNode
  | orderMapNode
  | trieFirst
  | trieSecond
  | trieThird
  | bookMapNode
  | bookObject
  | bookImpl
  deriving DecidableEq

/-- A placement policy: given the live addresses, an address that is not live. Freed addresses
may come back. -/
structure Placement where
  pick : Finset ℕ → ℕ
  pick_fresh : ∀ live, pick live ∉ live

/-- The allocator as one call sees it. -/
structure Alloc where
  place : Placement
  fails : AllocSite → Bool

/-- An allocator none of whose requests fail. -/
def Alloc.reliable (place : Placement) : Alloc := ⟨place, fun _ => false⟩

@[simp] theorem Alloc.reliable_fails (place : Placement) (site : AllocSite) :
    (Alloc.reliable place).fails site = false := rfl

/-- Requests memory at a site; `bad_alloc` where the site fails. -/
def Alloc.request {σ : Type} (al : Alloc) (site : AllocSite) : EStateM Fault σ Unit :=
  if al.fails site then throw .badAlloc else pure ()

theorem Alloc.request_ok {σ : Type} {al : Alloc} {site : AllocSite} (h : al.fails site = false)
    (s : σ) : (al.request site : EStateM Fault σ Unit).run s = .ok () s := by
  unfold Alloc.request; rw [h]; rfl

theorem Alloc.request_error {σ : Type} {al : Alloc} {site : AllocSite} (h : al.fails site = true)
    (s : σ) : (al.request site : EStateM Fault σ Unit).run s = .error .badAlloc s := by
  unfold Alloc.request; rw [h]; rfl

/-- The caller catches `bad_alloc`, and goes on from the state the call left. -/
def attempt {σ α : Type} (m : EStateM Fault σ α) : EStateM Fault σ (Option α) :=
  tryCatch (do return some (← m)) fun fault =>
    match fault with
    | .badAlloc => return none
    | fault => throw fault

theorem attempt_ok {σ α : Type} {m : EStateM Fault σ α} {s s' : σ} {a : α}
    (h : m.run s = .ok a s') : (attempt m).run s = .ok (some a) s' :=
  Basis.tryCatch_ok (Basis.run_bind_ok h)

theorem attempt_badAlloc {σ α : Type} {m : EStateM Fault σ α} {s s' : σ}
    (h : m.run s = .error .badAlloc s') : (attempt m).run s = .ok none s' :=
  Basis.tryCatch_error (Basis.run_bind_error h)

/-- The placement one past the highest live address. -/
def Placement.bump : Placement where
  pick live := live.sup id + 1
  pick_fresh live h := by
    have : live.sup id + 1 ≤ live.sup id := Finset.le_sup (f := id) h
    omega

end Lob
