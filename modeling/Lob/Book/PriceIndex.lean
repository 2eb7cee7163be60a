import Lob.Common

/-!
# The price index

A sparse fixed-height trie over the four bytes of a 32-bit price. The three tiers with children
have one shape, `Tier`: an occupancy mask and 256 owning child pointers; the last tier is a mask of
prices. `PriceIndex` is the root tier, its `children` being `root_` and its `child` being `first_`.
-/

namespace Lob

open Basis

/-! ## Masks -/

/-- Four 64-bit words, one bit for each byte value. -/
abbrev Mask := Fin 4 → BitVec 64

def maskWord (value : Byte) : Fin 4 := ⟨value.toNat / 64, by omega⟩

def maskBit (value : Byte) : BitVec 64 := 1#64 <<< (value.toNat % 64)

namespace Mask

def empty : Mask := fun _ => 0#64

def set (mask : Mask) (value : Byte) : Mask :=
  Function.update mask (maskWord value) (mask (maskWord value) ||| maskBit value)

def clear (mask : Mask) (value : Byte) : Mask :=
  Function.update mask (maskWord value) (mask (maskWord value) &&& ~~~maskBit value)

def any (mask : Mask) : Bool := (mask 0 ||| mask 1 ||| mask 2 ||| mask 3) != 0#64

/-- The word loop of `lowest`, over the words still to be looked at. -/
def lowestIn (mask : Mask) : List (Fin 4) → Byte
  | [] => 0
  | word :: rest =>
    if mask word ≠ 0#64 then BitVec.ofNat 8 (word.val * 64 + (mask word).ctz.toNat)
    else lowestIn mask rest

def lowest (mask : Mask) : Byte := lowestIn mask [0, 1, 2, 3]

/-- The word loop of `highest`, which runs downwards. -/
def highestIn (mask : Mask) : List (Fin 4) → Byte
  | [] => 0
  | word :: rest =>
    if mask word ≠ 0#64 then BitVec.ofNat 8 (word.val * 64 + (63 - (mask word).clz.toNat))
    else highestIn mask rest

def highest (mask : Mask) : Byte := highestIn mask [3, 2, 1, 0]

/-- The bit of `value`. -/
def test (mask : Mask) (value : Byte) : Bool :=
  (mask (maskWord value)).getLsbD (value.toNat % 64)

end Mask

/-- `byte(price, shift)`. -/
def byte (price : Price) (shift : ℕ) : Byte := ((price >>> shift) &&& 0xff#32).setWidth 8

/-- The price of four bytes, highest first. -/
def ofBytes (b3 b2 b1 b0 : Byte) : Price :=
  b3.setWidth 32 <<< 24 ||| b2.setWidth 32 <<< 16 ||| b1.setWidth 32 <<< 8 ||| b0.setWidth 32

/-! ## Tiers -/

/-- An inner tier: which children are occupied, and the owned children. -/
structure Tier (χ : Type) where
  children : Mask
  child : Byte → Option χ

namespace Tier

variable {χ : Type}

/-- A freshly allocated tier. -/
def empty : Tier χ := ⟨Mask.empty, fun _ => none⟩

/-- Stores a child without touching the mask. -/
def put (tier : Tier χ) (b : Byte) (c : χ) : Tier χ :=
  { tier with child := Function.update tier.child b (some c) }

/-- Stores a child and sets its bit. -/
def place (tier : Tier χ) (b : Byte) (c : χ) : Tier χ :=
  { tier.put b c with children := tier.children.set b }

/-- Resets a child and clears its bit. -/
def drop (tier : Tier χ) (b : Byte) : Tier χ :=
  { children := tier.children.clear b, child := Function.update tier.child b none }

end Tier

structure Third where
  prices : Mask

namespace Third

def empty : Third := ⟨Mask.empty⟩

end Third

abbrev Second := Tier Third
abbrev First := Tier Second
abbrev PriceIndex := Tier First

namespace PriceIndex

/-- `auto& child = slot; if (!child) child = make_unique<...>()`: the child, allocated and stored
where the slot is empty. -/
def ensure {χ : Type} (al : Alloc) (site : AllocSite) (slot : Option χ) (fresh : χ)
    (store : χ → PriceIndex → PriceIndex) : EStateM Fault PriceIndex χ :=
  match slot with
  | some c => pure c
  | none => do
    al.request site
    modify (store fresh)
    pure fresh

/-- Activates a price. Every tier of the path is allocated before a mask is touched; tiers
allocated before a failure stay, unmasked. -/
def add (al : Alloc) (price : Price) : EStateM Fault PriceIndex Unit := do
  let b3 := byte price 24
  let b2 := byte price 16
  let b1 := byte price 8
  let b0 := byte price 0
  let first ← ensure al .trieFirst ((← get).child b3) Tier.empty
    fun first ix => ix.put b3 first
  let second ← ensure al .trieSecond (first.child b2) Tier.empty
    fun second ix => ix.put b3 (first.put b2 second)
  let third ← ensure al .trieThird (second.child b1) Third.empty
    fun third ix => ix.put b3 (first.put b2 (second.put b1 third))
  let third := { third with prices := third.prices.set b0 }
  modify fun ix => ix.place b3 (first.place b2 (second.place b1 third))

/-- Deactivates a price. A tier left without occupied children is freed, and its parent's bit is
cleared; the cascade stops at the first tier that keeps one. -/
def remove (ix : PriceIndex) (price : Price) : Except Fault PriceIndex := do
  let b3 := byte price 24
  let b2 := byte price 16
  let b1 := byte price 8
  let b0 := byte price 0
  let first ← deref (ix.child b3)
  let second ← deref (first.child b2)
  let third ← deref (second.child b1)
  let third := { third with prices := third.prices.clear b0 }
  if third.prices.any then
    return ix.put b3 (first.put b2 (second.put b1 third))
  let second := second.drop b1
  if second.children.any then
    return ix.put b3 (first.put b2 second)
  let first := first.drop b2
  if first.children.any then
    return ix.put b3 first
  return ix.drop b3

def find (ix : PriceIndex) (reverse : Bool) : Except Fault (Option Price) := do
  if !ix.children.any then
    return none
  let b3 := if reverse then ix.children.highest else ix.children.lowest
  let first ← deref (ix.child b3)
  let b2 := if reverse then first.children.highest else first.children.lowest
  let second ← deref (first.child b2)
  let b1 := if reverse then second.children.highest else second.children.lowest
  let third ← deref (second.child b1)
  let b0 := if reverse then third.prices.highest else third.prices.lowest
  return some (ofBytes b3 b2 b1 b0)

def minimum (ix : PriceIndex) : Except Fault (Option Price) := find ix false

def maximum (ix : PriceIndex) : Except Fault (Option Price) := find ix true

def reset : PriceIndex := Tier.empty

end PriceIndex

end Lob
