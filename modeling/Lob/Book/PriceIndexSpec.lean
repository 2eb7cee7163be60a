import Lob.Book.Mask
import Lob.Basis.Digits

/-!
# The price index is an ordered set of prices

`TierView` says what one kind of tier stores: the numbers below `bound` it holds, when it is well
formed, and that it is live exactly when it holds one. `Tier.view` lifts a view through a tier, one
byte at a time, so that each operation is treated once and used at three depths.

A child may be present, well formed and not live: an `add` that failed halfway leaves such tiers.
Their mask bits are clear, and no operation looks at them.
-/

namespace Lob

open Basis

/-- The numbers stored in one kind of tier. -/
structure TierView (χ : Type) where
  bound : ℕ
  live : χ → Prop
  wf : χ → Prop
  vals : χ → Set ℕ
  bound_pos : 0 < bound
  vals_lt : ∀ c, ∀ r ∈ vals c, r < bound
  live_iff : ∀ c, wf c → (live c ↔ (vals c).Nonempty)

namespace Tier

variable {χ : Type} (V : TierView χ)

/-- The numbers of a tier: a child's numbers after the child's byte. -/
def vals (t : Tier χ) : Set ℕ :=
  {x | ∃ b c, t.child b = some c ∧ ∃ r ∈ V.vals c, x = b.toNat * V.bound + r}

/-- The mask marks exactly the live children. -/
structure WF (t : Tier χ) : Prop where
  mask : ∀ b, t.children.test b = true ↔ ∃ c, t.child b = some c ∧ V.live c
  sub : ∀ b c, t.child b = some c → V.wf c

theorem vals_lt (t : Tier χ) : ∀ x ∈ t.vals V, x < 256 * V.bound := by
  rintro x ⟨b, c, _, r, hr, rfl⟩
  have h1 := V.vals_lt c r hr
  have h2 : b.toNat * V.bound ≤ 255 * V.bound :=
    Nat.mul_le_mul_right _ (by have := b.isLt; omega)
  omega

theorem live_iff_vals (t : Tier χ) (h : t.WF V) :
    t.children.any = true ↔ (t.vals V).Nonempty := by
  rw [Mask.any_iff]
  constructor
  · rintro ⟨b, hb⟩
    obtain ⟨c, hc, hl⟩ := (h.mask b).mp hb
    obtain ⟨r, hr⟩ := (V.live_iff c (h.sub b c hc)).mp hl
    exact ⟨_, b, c, hc, r, hr, rfl⟩
  · rintro ⟨_, b, c, hc, r, hr, -⟩
    exact ⟨b, (h.mask b).mpr ⟨c, hc, (V.live_iff c (h.sub b c hc)).mpr ⟨r, hr⟩⟩⟩

/-- The view of a tier whose children have the view `V`. -/
def view : TierView (Tier χ) where
  bound := 256 * V.bound
  live t := t.children.any = true
  wf := WF V
  vals := vals V
  bound_pos := Nat.mul_pos (by norm_num) V.bound_pos
  vals_lt := vals_lt V
  live_iff := live_iff_vals V

variable {V} {t : Tier χ} {b : Byte} {c : χ}

@[simp] theorem put_child_self : (t.put b c).child b = some c := Function.update_self ..

@[simp] theorem put_child_of_ne {b' : Byte} (h : b' ≠ b) : (t.put b c).child b' = t.child b' :=
  Function.update_of_ne h ..

@[simp] theorem place_child : (t.place b c).child = (t.put b c).child := rfl

@[simp] theorem drop_child_self : (t.drop b).child b = none := Function.update_self ..

@[simp] theorem drop_child_of_ne {b' : Byte} (h : b' ≠ b) : (t.drop b).child b' = t.child b' :=
  Function.update_of_ne h ..

theorem empty_wf : (empty : Tier χ).WF V where
  mask b := by simp [empty]
  sub b c h := by simp [empty] at h

theorem vals_empty : (empty : Tier χ).vals V = ∅ := by
  ext x; simp [vals, empty]

/-! ## One tier changes -/

theorem place_wf (ht : t.WF V) (hc : V.wf c) (hl : V.live c) : (t.place b c).WF V where
  mask b' := by
    show (t.children.set b).test b' = true ↔ _
    rw [Mask.test_set]
    by_cases h : b' = b
    · subst h; simp [hl]
    · simp [h, ht.mask b']
  sub b' c' h := by
    by_cases e : b' = b
    · subst e; simp at h; exact h ▸ hc
    · rw [place_child, put_child_of_ne e] at h; exact ht.sub b' c' h

/-- An unmasked child may be replaced by one that is not live. -/
theorem put_wf (ht : t.WF V) (hc : V.wf c)
    (hl : V.live c ↔ ∃ c₀, t.child b = some c₀ ∧ V.live c₀) : (t.put b c).WF V where
  mask b' := by
    show t.children.test b' = true ↔ _
    rw [ht.mask b']
    by_cases h : b' = b
    · subst h; simp [hl]
    · simp [h]
  sub b' c' h := by
    by_cases e : b' = b
    · subst e; simp at h; exact h ▸ hc
    · rw [put_child_of_ne e] at h; exact ht.sub b' c' h

theorem drop_wf (ht : t.WF V) : (t.drop b).WF V where
  mask b' := by
    show (t.children.clear b).test b' = true ↔ _
    rw [Mask.test_clear]
    by_cases h : b' = b
    · subst h; simp
    · simp [h, ht.mask b']
  sub b' c' h := by
    by_cases e : b' = b
    · subst e; simp at h
    · rw [drop_child_of_ne e] at h; exact ht.sub b' c' h

/-- The numbers under the child at `b`. -/
def valsAt (V : TierView χ) (t : Tier χ) (b : Byte) : Set ℕ :=
  {r | ∃ c, t.child b = some c ∧ r ∈ V.vals c}

theorem valsAt_some (h : t.child b = some c) : t.valsAt V b = V.vals c := by
  ext r; simp [valsAt, h]

theorem valsAt_none (h : t.child b = none) : t.valsAt V b = ∅ := by
  ext r; simp [valsAt, h]

theorem mem_vals_iff {x : ℕ} :
    x ∈ t.vals V ↔ ∃ b, ∃ r ∈ t.valsAt V b, x = b.toNat * V.bound + r := by
  constructor
  · rintro ⟨b, c, hc, r, hr, rfl⟩; exact ⟨b, r, ⟨c, hc, hr⟩, rfl⟩
  · rintro ⟨b, r, ⟨c, hc, hr⟩, rfl⟩; exact ⟨b, c, hc, r, hr, rfl⟩

theorem valsAt_lt {r : ℕ} (h : r ∈ t.valsAt V b) : r < V.bound := by
  obtain ⟨c, _, hr⟩ := h; exact V.vals_lt c r hr

/-- A member's leading byte and remainder are determined. -/
theorem mem_vals_digits {r : ℕ} (hr : r < V.bound) :
    b.toNat * V.bound + r ∈ t.vals V ↔ r ∈ t.valsAt V b := by
  rw [mem_vals_iff]
  constructor
  · rintro ⟨b', r', hr', h⟩
    obtain ⟨h1, rfl⟩ := digits_inj hr (valsAt_lt hr') h
    obtain rfl := BitVec.eq_of_toNat_eq h1
    exact hr'
  · intro h; exact ⟨b, r, h, rfl⟩

/-- Where one child's numbers gain `r`, the tier's numbers gain `r` under that byte. -/
theorem vals_insert {t' : Tier χ} {r : ℕ} (hself : t'.valsAt V b = insert r (t.valsAt V b))
    (hother : ∀ b', b' ≠ b → t'.child b' = t.child b') :
    t'.vals V = insert (b.toNat * V.bound + r) (t.vals V) := by
  have hne : ∀ b', b' ≠ b → t'.valsAt V b' = t.valsAt V b' := by
    intro b' h; unfold valsAt; rw [hother b' h]
  ext x
  rw [mem_vals_iff, Set.mem_insert_iff, mem_vals_iff]
  constructor
  · rintro ⟨b', r', hr', rfl⟩
    by_cases h : b' = b
    · subst h
      rw [hself] at hr'
      rcases hr' with rfl | hr'
      · exact Or.inl rfl
      · exact Or.inr ⟨b', r', hr', rfl⟩
    · exact Or.inr ⟨b', r', hne b' h ▸ hr', rfl⟩
  · rintro (rfl | ⟨b', r', hr', rfl⟩)
    · exact ⟨b, r, by rw [hself]; exact Set.mem_insert .., rfl⟩
    · by_cases h : b' = b
      · subst h; exact ⟨b', r', by rw [hself]; exact Set.mem_insert_of_mem _ hr', rfl⟩
      · exact ⟨b', r', (hne b' h).symm ▸ hr', rfl⟩

/-- Where one child's numbers lose `r`, the tier's numbers lose `r` under that byte. -/
theorem vals_remove {t' : Tier χ} {r : ℕ} (hr : r < V.bound)
    (hself : t'.valsAt V b = t.valsAt V b \ {r})
    (hother : ∀ b', b' ≠ b → t'.child b' = t.child b') :
    t'.vals V = t.vals V \ {b.toNat * V.bound + r} := by
  have hne : ∀ b', b' ≠ b → t'.valsAt V b' = t.valsAt V b' := by
    intro b' h; unfold valsAt; rw [hother b' h]
  ext x
  rw [Set.mem_sdiff, Set.mem_singleton_iff, mem_vals_iff, mem_vals_iff]
  constructor
  · rintro ⟨b', r', hr', rfl⟩
    by_cases h : b' = b
    · subst h
      rw [hself] at hr'
      exact ⟨⟨b', r', hr'.1, rfl⟩, fun e => hr'.2 (by simpa using e)⟩
    · rw [hne b' h] at hr'
      refine ⟨⟨b', r', hr', rfl⟩, fun e => h ?_⟩
      exact BitVec.eq_of_toNat_eq (digits_inj (valsAt_lt hr') hr e).1
  · rintro ⟨⟨b', r', hr', rfl⟩, hx⟩
    by_cases h : b' = b
    · subst h
      exact ⟨b', r', by rw [hself]; exact ⟨hr', fun e => hx (by rw [e])⟩, rfl⟩
    · exact ⟨b', r', (hne b' h).symm ▸ hr', rfl⟩

/-! ## The extremes of a tier -/

theorem fibre_vals (d : ℕ) :
    fibre V.bound (t.vals V) d = {r | ∃ b, b.toNat = d ∧ r ∈ t.valsAt V b} := by
  ext r
  constructor
  · rintro ⟨hr, hx⟩
    obtain ⟨b, r', hr', h⟩ := mem_vals_iff.mp hx
    obtain ⟨rfl, rfl⟩ := digits_inj hr (valsAt_lt hr') h
    exact ⟨b, rfl, hr'⟩
  · rintro ⟨b, rfl, hr⟩
    exact ⟨valsAt_lt hr, mem_vals_iff.mpr ⟨b, r, hr, rfl⟩⟩

theorem fibre_vals_byte (h : t.child b = some c) :
    fibre V.bound (t.vals V) b.toNat = V.vals c := by
  rw [fibre_vals, ← valsAt_some h]
  ext r
  constructor
  · rintro ⟨b', hb, hr⟩; exact BitVec.eq_of_toNat_eq hb ▸ hr
  · intro hr; exact ⟨b, rfl, hr⟩

theorem test_of_fibre (ht : t.WF V) {d : ℕ} (h : (fibre V.bound (t.vals V) d).Nonempty) :
    ∃ b : Byte, b.toNat = d ∧ t.children.test b = true := by
  rw [fibre_vals] at h
  obtain ⟨r, b, hb, c, hc, hr⟩ := h
  exact ⟨b, hb, (ht.mask b).mpr ⟨c, hc, (V.live_iff c (ht.sub b c hc)).mpr ⟨r, hr⟩⟩⟩

/-- Below the lowest masked byte sits a live child, and its least number completes the tier's. -/
theorem lowest_child (ht : t.WF V) (h : t.children.any = true) :
    ∃ c, t.child t.children.lowest = some c ∧ V.wf c ∧ V.live c ∧
      ∀ r, IsLeast (V.vals c) r →
        IsLeast (t.vals V) (t.children.lowest.toNat * V.bound + r) := by
  obtain ⟨c, hc, hl⟩ := (ht.mask _).mp (Mask.test_lowest h)
  refine ⟨c, hc, ht.sub _ c hc, hl, fun r hr => ?_⟩
  refine isLeast_of_digits V.bound_pos (fun d hd => ?_) ?_
  · obtain ⟨b, rfl, hb⟩ := test_of_fibre ht hd
    exact Mask.lowest_le hb
  · rw [fibre_vals_byte hc]; exact hr

theorem highest_child (ht : t.WF V) (h : t.children.any = true) :
    ∃ c, t.child t.children.highest = some c ∧ V.wf c ∧ V.live c ∧
      ∀ r, IsGreatest (V.vals c) r →
        IsGreatest (t.vals V) (t.children.highest.toNat * V.bound + r) := by
  obtain ⟨c, hc, hl⟩ := (ht.mask _).mp (Mask.test_highest h)
  refine ⟨c, hc, ht.sub _ c hc, hl, fun r hr => ?_⟩
  refine isGreatest_of_digits V.bound_pos (fun d hd => ?_) ?_
  · obtain ⟨b, rfl, hb⟩ := test_of_fibre ht hd
    exact Mask.le_highest hb
  · rw [fibre_vals_byte hc]; exact hr

end Tier

/-! ## Bytes of a price -/

theorem toNat_byte (price : Price) (shift : ℕ) :
    (byte price shift).toNat = price.toNat / 2 ^ shift % 256 := by
  unfold byte
  rw [BitVec.toNat_setWidth, BitVec.toNat_and, BitVec.toNat_ushiftRight, Nat.shiftRight_eq_div_pow]
  show (price.toNat / 2 ^ shift &&& (2 ^ 8 - 1)) % 2 ^ 8 = _
  rw [Nat.and_two_pow_sub_one_eq_mod, Nat.mod_mod]

theorem toNat_widen (b : Byte) : (b.setWidth 32).toNat = b.toNat := by
  rw [BitVec.toNat_setWidth]; omega

/-! ## The whole index -/

/-- The last tier holds the bytes of its mask. -/
def thirdView : TierView Third where
  bound := 256
  live t := t.prices.any = true
  wf _ := True
  vals t := {x | ∃ b, t.prices.test b = true ∧ x = b.toNat}
  bound_pos := by norm_num
  vals_lt := by rintro t _ ⟨b, _, rfl⟩; exact b.isLt
  live_iff t _ := by
    rw [Mask.any_iff]
    constructor
    · rintro ⟨b, hb⟩; exact ⟨_, b, hb, rfl⟩
    · rintro ⟨_, b, hb, -⟩; exact ⟨b, hb⟩

abbrev secondView : TierView Second := Tier.view thirdView
abbrev firstView : TierView First := Tier.view secondView

theorem toNat_bytes (price : Price) :
    price.toNat = (byte price 24).toNat * firstView.bound +
      ((byte price 16).toNat * secondView.bound +
        ((byte price 8).toNat * thirdView.bound + (byte price 0).toNat)) := by
  show _ = (byte price 24).toNat * (256 * (256 * 256)) +
    ((byte price 16).toNat * (256 * 256) + ((byte price 8).toNat * 256 + (byte price 0).toNat))
  have := price.isLt
  simp only [toNat_byte]
  omega

/-- The bytes below each byte of a price fit under it. -/
theorem low_bytes_lt (price : Price) :
    (byte price 16).toNat * secondView.bound + ((byte price 8).toNat * thirdView.bound +
        (byte price 0).toNat) < firstView.bound ∧
      (byte price 8).toNat * thirdView.bound + (byte price 0).toNat < secondView.bound ∧
        (byte price 0).toNat < thirdView.bound := by
  show (byte price 16).toNat * (256 * 256) + ((byte price 8).toNat * 256 + (byte price 0).toNat) <
    256 * (256 * 256) ∧ (byte price 8).toNat * 256 + (byte price 0).toNat < 256 * 256 ∧
      (byte price 0).toNat < 256
  have h2 := (byte price 16).isLt
  have h1 := (byte price 8).isLt
  have h0 := (byte price 0).isLt
  omega

/-- The price `find` assembles from four bytes. -/
theorem toNat_ofBytes (b3 b2 b1 b0 : Byte) :
    (ofBytes b3 b2 b1 b0).toNat = b3.toNat * firstView.bound +
      (b2.toNat * secondView.bound + (b1.toNat * thirdView.bound + b0.toNat)) := by
  show _ = b3.toNat * (256 * (256 * 256)) + (b2.toNat * (256 * 256) + (b1.toNat * 256 + b0.toNat))
  have h1 := toNat_shiftLeft_or (w := 32) (k := 8) (x := b1.setWidth 32) (y := b0.setWidth 32)
    (by rw [toNat_widen]; omega) (by rw [toNat_widen]; omega)
  have h2 := toNat_shiftLeft_or (w := 32) (k := 16) (x := b2.setWidth 32)
    (y := b1.setWidth 32 <<< 8 ||| b0.setWidth 32)
    (by rw [toNat_widen]; omega) (by rw [h1, toNat_widen, toNat_widen]; omega)
  have h3 := toNat_shiftLeft_or (w := 32) (k := 24) (x := b3.setWidth 32)
    (y := b2.setWidth 32 <<< 16 ||| (b1.setWidth 32 <<< 8 ||| b0.setWidth 32))
    (by rw [toNat_widen]; omega)
    (by rw [h2, h1, toNat_widen, toNat_widen, toNat_widen]; omega)
  unfold ofBytes
  rw [BitVec.or_assoc, BitVec.or_assoc, h3, h2, h1]
  simp only [toNat_widen]
  omega

theorem Third.vals_set (t : Third) (b : Byte) :
    thirdView.vals { t with prices := t.prices.set b } = insert b.toNat (thirdView.vals t) := by
  ext x
  show (∃ b', (t.prices.set b).test b' = true ∧ x = b'.toNat) ↔
    x = b.toNat ∨ ∃ b', t.prices.test b' = true ∧ x = b'.toNat
  simp only [Mask.test_set, Bool.or_eq_true, decide_eq_true_eq]
  constructor
  · rintro ⟨b', rfl | h, rfl⟩
    · exact Or.inl rfl
    · exact Or.inr ⟨b', h, rfl⟩
  · rintro (rfl | ⟨b', h, rfl⟩)
    · exact ⟨b, Or.inl rfl, rfl⟩
    · exact ⟨b', Or.inr h, rfl⟩

theorem Third.vals_clear (t : Third) (b : Byte) :
    thirdView.vals { t with prices := t.prices.clear b } = thirdView.vals t \ {b.toNat} := by
  ext x
  show (∃ b', (t.prices.clear b).test b' = true ∧ x = b'.toNat) ↔
    (∃ b', t.prices.test b' = true ∧ x = b'.toNat) ∧ x ≠ b.toNat
  simp only [Mask.test_clear, Bool.and_eq_true, Bool.not_eq_true', decide_eq_false_iff_not]
  constructor
  · rintro ⟨b', ⟨h, hne⟩, rfl⟩
    exact ⟨⟨b', h, rfl⟩, fun e => hne (BitVec.eq_of_toNat_eq e)⟩
  · rintro ⟨⟨b', h, rfl⟩, hne⟩
    exact ⟨b', ⟨h, fun e => hne (by rw [e])⟩, rfl⟩

namespace PriceIndex

/-- Every mask bit of the index marks exactly a live child. -/
abbrev WF (ix : PriceIndex) : Prop := Tier.WF firstView ix

/-- The prices the masks of the index lead to. -/
def Active (ix : PriceIndex) (price : Price) : Prop :=
  ∃ first second third, ix.children.test (byte price 24) = true ∧
    ix.child (byte price 24) = some first ∧ first.children.test (byte price 16) = true ∧
    first.child (byte price 16) = some second ∧ second.children.test (byte price 8) = true ∧
    second.child (byte price 8) = some third ∧ third.prices.test (byte price 0) = true

theorem third_vals {t : Third} {b : Byte} :
    b.toNat ∈ thirdView.vals t ↔ t.prices.test b = true := by
  constructor
  · rintro ⟨b', h, e⟩; exact BitVec.eq_of_toNat_eq e ▸ h
  · intro h; exact ⟨b, h, rfl⟩

/-- In a well-formed index the numbers below the root are the active prices. -/
theorem active_iff {ix : PriceIndex} (h : ix.WF) (price : Price) :
    ix.Active price ↔ price.toNat ∈ Tier.vals firstView ix := by
  have hlt := thirdView.vals_lt
  rw [toNat_bytes price]
  constructor
  · rintro ⟨first, second, third, -, hf, -, hs, -, ht, hb⟩
    exact ⟨_, first, hf, _, ⟨_, second, hs, _, ⟨_, third, ht, _, third_vals.mpr hb, rfl⟩, rfl⟩, rfl⟩
  · intro hx
    obtain ⟨h2, h1, h0⟩ := low_bytes_lt price
    obtain ⟨first, hf, hx⟩ := (Tier.mem_vals_digits (V := firstView) h2).mp hx
    have wf1 := h.sub _ _ hf
    have l1 := (firstView.live_iff first wf1).mpr ⟨_, hx⟩
    obtain ⟨second, hs, hx⟩ := (Tier.mem_vals_digits (V := secondView) h1).mp hx
    have wf2 := wf1.sub _ _ hs
    have l2 := (secondView.live_iff second wf2).mpr ⟨_, hx⟩
    obtain ⟨third, ht, hx⟩ := (Tier.mem_vals_digits (V := thirdView) h0).mp hx
    have l3 := (thirdView.live_iff third trivial).mpr ⟨_, hx⟩
    exact ⟨first, second, third, (h.mask _).mpr ⟨first, hf, l1⟩, hf,
      (wf1.mask _).mpr ⟨second, hs, l2⟩, hs, (wf2.mask _).mpr ⟨third, ht, l3⟩, ht,
      third_vals.mp hx⟩

theorem reset_wf : reset.WF := Tier.empty_wf

theorem not_active_reset (price : Price) : ¬reset.Active price := by
  rintro ⟨first, _, _, _, h, _⟩
  simp [reset, Tier.empty] at h

end PriceIndex

end Lob
