import Mathlib.Algebra.Order.BigOperators.Group.List
import Lob.Book.Runs

/-!
# The representation invariant

What holds of the cells of a book after any run of calls, said without queues: the lists are those
met by following `next`.
-/

namespace Lob

open Basis

namespace OrderBook

/-- The nodes of a level, from its head on. -/
def chain (b : OrderBook) (l : PriceLevel) : List NodePtr := walk b.nextOf l.orderCount l.head

/-- The quantity of the order in a node. -/
def quantityOf (b : OrderBook) (n : NodePtr) : ℕ :=
  ((b.nodes.lookup n).map fun o => o.quantity.toNat).getD 0

/-- A level and the doubly linked list it heads. -/
structure LevelInvariant (b : OrderBook) (l : PriceLevel) (side : Side) (price : Price) :
    Prop where
  atPrice : l.price = price
  visits : (b.chain l).length = l.orderCount
  distinct : (b.chain l).Nodup
  head : l.head = (b.chain l).head?
  tail : l.tail = (b.chain l).getLast?
  head_previous : ∀ n, l.head = some n → b.prevOf n = none
  tail_next : ∀ n, l.tail = some n → b.nextOf n = none
  next_previous : ∀ n ∈ b.chain l, ∀ m, b.nextOf n = some m → m ∈ b.chain l ∧ b.prevOf m = some n
  previous_next : ∀ n ∈ b.chain l, ∀ m, b.prevOf n = some m → m ∈ b.chain l ∧ b.nextOf m = some n
  mapped : ∀ n ∈ b.chain l, ∃ id o, b.orders.lookup id = some n ∧ b.nodes.lookup n = some o ∧
    o.side = side ∧ o.price = price
  quantity : l.quantity = BitVec.ofNat 64 ((b.chain l).map b.quantityOf).sum
  quantity_exact : l.orderCount ≤ 2 ^ 32 + 1 →
    l.quantity.toNat = ((b.chain l).map b.quantityOf).sum

/-- A node of the order map: it is in the list of the level of its side and price, once. -/
structure NodeInvariant (b : OrderBook) (id : OrderId) (n : NodePtr) (o : OrderNode) : Prop where
  node : b.nodes.lookup n = some o
  key : o.id = id
  positive : 0 < o.quantity.toNat
  level : ∃ p l, o.level = some p ∧ (b.levels o.side).lookup o.price = some p ∧
    b.cells.lookup p = some l ∧ (b.chain l).count n = 1

/-- The representation invariant. -/
structure PointerInvariant (b : OrderBook) : Prop where
  active : ∀ side price, (b.indices side).Active price ↔ price ∈ b.levels side
  resting : ∀ side price, price ∈ b.levels side ↔ ∃ id n o, b.orders.lookup id = some n ∧
    b.nodes.lookup n = some o ∧ o.side = side ∧ o.price = price
  level : ∀ side price p, (b.levels side).lookup price = some p →
    ∃ l, b.cells.lookup p = some l ∧ LevelInvariant b l side price
  node : ∀ id n, b.orders.lookup id = some n → ∃ o, NodeInvariant b id n o

variable {b : OrderBook} {q : Queues NodePtr} {r : ReferenceBook} {side : Side} {price : Price}
  {l : PriceLevel}

theorem Fits.chain_eq (hlay : Layout b q none) (h : b.Fits l price (q side price)) :
    b.chain l = q side price := by
  unfold chain
  rw [h.count, h.head, (hlay.linked side price).walk_eq]

theorem shares_eq_ofNat (n : NodePtr) : b.shares n = BitVec.ofNat 64 (b.quantityOf n) := by
  unfold shares quantityOf
  cases b.nodes.lookup n with
  | none => rfl
  | some o => simp [BitVec.ofNat_toNat]

theorem sum_shares (queue : List NodePtr) :
    (queue.map b.shares).sum = BitVec.ofNat 64 (queue.map b.quantityOf).sum := by
  induction queue with
  | nil => rfl
  | cons n queue ih =>
    rw [List.map_cons, List.sum_cons, List.map_cons, List.sum_cons, ih, shares_eq_ofNat,
      BitVec.ofNat_add]

theorem quantityOf_lt (n : NodePtr) : b.quantityOf n ≤ 2 ^ 32 - 1 := by
  unfold quantityOf
  cases b.nodes.lookup n with
  | none => simp
  | some o => simpa using Nat.le_sub_one_of_lt o.quantity.isLt

/-- At most `2^32 + 1` orders cannot overflow a level. -/
theorem sum_quantityOf_lt (queue : List NodePtr) (h : queue.length ≤ 2 ^ 32 + 1) :
    (queue.map b.quantityOf).sum < 2 ^ 64 := by
  have hle : (queue.map b.quantityOf).sum ≤ (queue.map b.quantityOf).length • (2 ^ 32 - 1) :=
    List.sum_le_card_nsmul _ _ fun x hx => by
      obtain ⟨n, _, rfl⟩ := List.mem_map.mp hx
      exact quantityOf_lt n
  rw [List.length_map, nsmul_eq_mul, Nat.cast_id] at hle
  have : queue.length * (2 ^ 32 - 1) ≤ (2 ^ 32 + 1) * (2 ^ 32 - 1) := Nat.mul_le_mul_right _ h
  omega

theorem Layout.levelInvariant (h : Layout b q none) (hfits : b.Fits l price (q side price)) :
    LevelInvariant b l side price := by
  have hchain := hfits.chain_eq h
  have hlink := h.linked side price
  constructor
  case atPrice => exact hfits.price
  case visits => rw [hchain, hfits.count]
  case distinct => rw [hchain]; exact h.nodup side price
  case head => rw [hchain, hfits.head]
  case tail => rw [hchain, hfits.tail]
  case head_previous => exact fun n hn => hlink.prev_head (hfits.head ▸ hn)
  case tail_next => exact fun n hn => hlink.next_getLast (hfits.tail ▸ hn)
  case next_previous => rw [hchain]; exact fun n hn m hm => hlink.prev_of_next hn hm
  case previous_next => rw [hchain]; exact fun n hn m hm => hlink.next_of_prev hn hm
  case mapped =>
    rw [hchain]
    intro n hn
    obtain ⟨o, ro⟩ := h.node _ _ _ hn
    exact ⟨o.id, o, ro.owner, ro.node, ro.onSide, ro.atPrice⟩
  case quantity => rw [hchain, hfits.quantity, sum_shares]
  case quantity_exact =>
    intro hcount
    rw [hchain, hfits.quantity, sum_shares, BitVec.toNat_ofNat, Nat.mod_eq_of_lt]
    exact sum_quantityOf_lt _ (hfits.count ▸ hcount)

/-- A book that represents a reference book and has no empty level satisfies the invariant. -/
theorem Represents.pointerInvariant (h : Represents b r) (ht : Tight b r) :
    PointerInvariant b := by
  obtain ⟨q, hlay, hix, hag⟩ := h
  have hlevel : ∀ side price, price ∈ b.levels side ↔ q side price ≠ [] := by
    intro side price
    rw [← Finmap.lookup_isSome, Option.isSome_iff_exists]
    constructor
    · rintro ⟨p, hp⟩
      rw [Ne, ← hag.level_eq_nil]
      exact ht _ _ _ hp
    · exact hlay.listed side price
  have hnode : ∀ id n, b.orders.lookup id = some n →
      ∃ o, b.Resting o.side o.price n o ∧ o.id = id ∧ n ∈ q o.side o.price := by
    intro id n hn
    obtain ⟨o, ho, hid, hq⟩ := hlay.owned id n hn
    have hmem := hq.resolve_left (by simp)
    obtain ⟨o', ro⟩ := hlay.node _ _ _ hmem
    obtain rfl : o = o' := Option.some.inj (ho.symm.trans ro.node)
    exact ⟨o, ro, hid, hmem⟩
  constructor
  case active => exact fun side price => (hix.active side price).trans (hlevel side price).symm
  case resting =>
    intro side price
    rw [hlevel]
    constructor
    · intro hne
      obtain ⟨n, hn⟩ := List.exists_mem_of_ne_nil _ hne
      obtain ⟨o, ro⟩ := hlay.node _ _ _ hn
      exact ⟨o.id, n, o, ro.owner, ro.node, ro.onSide, ro.atPrice⟩
    · rintro ⟨id, n, o, hn, ho, rfl, rfl⟩
      obtain ⟨o', ro, _, hmem⟩ := hnode id n hn
      obtain rfl : o = o' := Option.some.inj (ho.symm.trans ro.node)
      exact List.ne_nil_of_mem hmem
  case level =>
    intro side price p hp
    obtain ⟨l, hl, hfits⟩ := hlay.cell side price p hp
    exact ⟨l, hl, hlay.levelInvariant hfits⟩
  case node =>
    intro id n hn
    obtain ⟨o, ro, hid, hmem⟩ := hnode id n hn
    obtain ⟨p, l, hp, hl, hfits⟩ := hlay.level_of_mem hmem
    refine ⟨o, ro.node, hid, ?_, p, l, ro.level.trans hp, hp, hl, ?_⟩
    · exact Nat.pos_of_ne_zero fun e => ro.positive (BitVec.eq_of_toNat_eq e)
    · rw [hfits.chain_eq hlay]
      exact List.count_eq_one_of_mem (hlay.nodup _ _) hmem

/-- **The representation invariant** holds after every run of calls. -/
theorem runCalls_pointerInvariant (calls : List (Placement × Call)) :
    ∃ results b, (runCalls calls).run empty = .ok results b ∧ PointerInvariant b := by
  obtain ⟨b, run, h, ht⟩ := runCalls_simulates calls empty_represents
  exact ⟨_, b, run, h.pointerInvariant (ht empty_tight)⟩

end OrderBook

end Lob
