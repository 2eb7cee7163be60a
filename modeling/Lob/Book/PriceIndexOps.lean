import Lob.Book.PriceIndexSpec

/-!
# Activating, deactivating and finding prices

`add` adds one active price or, when an allocation fails, none; `remove` takes one away; `minimum`
and `maximum` are the least and the greatest active price. None of them follows a missing child.
-/

namespace Lob

open Basis

namespace Tier

variable {χ : Type} {V : TierView χ} {t : Tier χ} {b : Byte} {c c' : χ}

@[simp] theorem put_place : (t.put b c).place b c' = t.place b c' := by
  unfold place put; simp

@[simp] theorem put_put : (t.put b c).put b c' = t.put b c' := by
  unfold put; simp

/-- `c` is the child at `b`, or an empty tier where there is none. -/
structure At (V : TierView χ) (t : Tier χ) (b : Byte) (c : χ) : Prop where
  wf : V.wf c
  vals : V.vals c = t.valsAt V b

theorem At.of_child (ht : t.WF V) (h : t.child b = some c) : At V t b c :=
  ⟨ht.sub b c h, (valsAt_some h).symm⟩

theorem At.of_none (h : t.child b = none) (hwf : V.wf c) (hc : V.vals c = ∅) : At V t b c :=
  ⟨hwf, by rw [hc, valsAt_none h]⟩

theorem valsAt_put_self : (t.put b c).valsAt V b = V.vals c := valsAt_some put_child_self

/-- Storing a child that stands for the present one changes nothing visible. -/
theorem At.put_wf (ht : t.WF V) (h : At V t b c) : (t.put b c).WF V := by
  refine Tier.put_wf ht h.wf ?_
  rw [V.live_iff c h.wf, h.vals]
  constructor
  · rintro ⟨r, c₀, hc₀, hr⟩
    exact ⟨c₀, hc₀, (V.live_iff c₀ (ht.sub _ _ hc₀)).mpr ⟨r, hr⟩⟩
  · rintro ⟨c₀, hc₀, hl⟩
    obtain ⟨r, hr⟩ := (V.live_iff c₀ (ht.sub _ _ hc₀)).mp hl
    exact ⟨r, c₀, hc₀, hr⟩

theorem At.put_vals (h : At V t b c) : (t.put b c).vals V = t.vals V := by
  have hat : ∀ b', (t.put b c).valsAt V b' = t.valsAt V b' := by
    intro b'
    by_cases e : b' = b
    · subst e; rw [valsAt_put_self, h.vals]
    · unfold valsAt; rw [put_child_of_ne e]
  ext x
  simp only [mem_vals_iff, hat]

/-- Replacing a child one level down keeps what stands at `b`. -/
theorem At.deepen {T : Tier (Tier χ)} {B : Byte} (h : At V t b c) (hT : At (view V) T B t) :
    At (view V) T B (t.put b c) :=
  ⟨h.put_wf hT.wf, h.put_vals.trans hT.vals⟩

/-- Placing a child that gained `r`. -/
theorem place_insert {r : ℕ} (ht : t.WF V) (hc : At V t b c) (hwf : V.wf c')
    (hvals : V.vals c' = insert r (V.vals c)) :
    (view V).wf (t.place b c') ∧
      (view V).vals (t.place b c') = insert (b.toNat * V.bound + r) ((view V).vals t) := by
  have hl : V.live c' := (V.live_iff c' hwf).mpr ⟨r, by rw [hvals]; exact Set.mem_insert ..⟩
  refine ⟨place_wf ht hwf hl, vals_insert ?_ fun b' h => put_child_of_ne h⟩
  have hput : (t.place b c').child b = some c' := Function.update_self ..
  rw [valsAt_some hput, hvals, hc.vals]

/-- Storing a child that lost `r` and is still live. -/
theorem put_remove {r : ℕ} {d : χ} (ht : t.WF V) (hc : t.child b = some c) (hr : r < V.bound)
    (hwf : V.wf d) (hl : V.live c) (hl' : V.live d) (hvals : V.vals d = V.vals c \ {r}) :
    (view V).wf (t.put b d) ∧
      (view V).vals (t.put b d) = (view V).vals t \ {b.toNat * V.bound + r} := by
  refine ⟨put_wf ht hwf ⟨fun _ => ⟨c, hc, hl⟩, fun _ => hl'⟩,
    vals_remove hr ?_ fun b' h => put_child_of_ne h⟩
  rw [valsAt_put_self, hvals, valsAt_some hc]

/-- Dropping a child that lost its last number. -/
theorem drop_remove {r : ℕ} (ht : t.WF V) (hc : t.child b = some c) (hr : r < V.bound)
    (hvals : V.vals c \ {r} = ∅) :
    (view V).wf (t.drop b) ∧
      (view V).vals (t.drop b) = (view V).vals t \ {b.toNat * V.bound + r} := by
  refine ⟨drop_wf ht, vals_remove hr ?_ fun b' h => drop_child_of_ne h⟩
  rw [valsAt_none drop_child_self, valsAt_some hc, hvals]

theorem not_live_vals (hwf : V.wf c) (h : ¬V.live c) : V.vals c = ∅ := by
  rw [V.live_iff c hwf] at h
  exact Set.not_nonempty_iff_eq_empty.mp h

end Tier

namespace PriceIndex

variable {ix : PriceIndex}

theorem ensure_some {χ : Type} {al : Alloc} {site : AllocSite} {slot : Option χ} {c fresh : χ}
    {store : χ → PriceIndex → PriceIndex} (h : slot = some c) :
    (ensure al site slot fresh store).run ix = .ok c ix := by
  subst h; rfl

theorem ensure_none {χ : Type} {al : Alloc} {site : AllocSite} {slot : Option χ} {fresh : χ}
    {store : χ → PriceIndex → PriceIndex} (h : slot = none) :
    (ensure al site slot fresh store).run ix =
      if al.fails site then .error .badAlloc ix else .ok fresh (store fresh ix) := by
  subst h
  unfold ensure
  by_cases hf : al.fails site = true
  · rw [run_bind_error (Alloc.request_error hf ix), if_pos hf]
  · rw [run_bind_ok (Alloc.request_ok (Bool.eq_false_iff.mpr hf) ix), if_neg hf]; rfl

/-- An index that shows the prices of `ix` and differs from it at most in one child. -/
structure Same (ix s : PriceIndex) (b : Byte) : Prop where
  wf : s.WF
  vals : s.vals firstView = ix.vals firstView
  put : ∀ first, s.put b first = ix.put b first
  place : ∀ first, s.place b first = ix.place b first

theorem Same.refl (h : ix.WF) (b : Byte) : Same ix ix b := ⟨h, rfl, fun _ => rfl, fun _ => rfl⟩

/-- Storing a child that stands for the present one. -/
theorem Same.store {s : PriceIndex} {b : Byte} {first : First} (h : ix.WF) (hs : Same ix s b)
    (hat : Tier.At firstView ix b first) : Same ix (s.put b first) b where
  wf := by rw [hs.put]; exact hat.put_wf h
  vals := by rw [hs.put]; exact hat.put_vals
  put f := by rw [hs.put]; exact Tier.put_put
  place f := by rw [hs.put]; exact Tier.put_place

/-- One tier of the path is found or allocated: the child stands where it should and the prices
stay the same. When the allocation fails nothing more is stored. -/
theorem ensure_spec {χ : Type} {V : TierView χ} (al : Alloc) (site : AllocSite) {t : Tier χ}
    {b b3 : Byte} (fresh : χ) (wrap : χ → First) {s : PriceIndex} (h : ix.WF) (ht : t.WF V)
    (hwf : V.wf fresh) (hempty : V.vals fresh = ∅)
    (hwrap : ∀ c, Tier.At V t b c → Tier.At firstView ix b3 (wrap c)) (hs : Same ix s b3) :
    (al.fails site = true ∧ (ensure al site (t.child b) fresh
        (fun c ix => ix.put b3 (wrap c))).run s = .error .badAlloc s) ∨
      ∃ c s', (ensure al site (t.child b) fresh (fun c ix => ix.put b3 (wrap c))).run s = .ok c s' ∧
        Tier.At V t b c ∧ Same ix s' b3 := by
  cases hc : t.child b with
  | some c => exact Or.inr ⟨c, s, ensure_some rfl, .of_child ht hc, hs⟩
  | none =>
    have hat : Tier.At V t b fresh := .of_none hc hwf hempty
    rw [ensure_none rfl]
    by_cases hf : al.fails site = true
    · exact Or.inl ⟨hf, if_pos hf⟩
    · exact Or.inr ⟨fresh, _, if_neg hf, hat, hs.store h (hwrap _ hat)⟩

theorem Same.active {s : PriceIndex} {b : Byte} (h : ix.WF) (hs : Same ix s b) (price : Price) :
    s.Active price ↔ ix.Active price := by
  rw [active_iff hs.wf, active_iff h, hs.vals]

theorem active_of_vals_insert {s : PriceIndex} {price : Price} (h : ix.WF) (hs : s.WF)
    (hv : s.vals firstView = insert price.toNat (ix.vals firstView)) (q : Price) :
    s.Active q ↔ q = price ∨ ix.Active q := by
  rw [active_iff hs, active_iff h, hv, Set.mem_insert_iff, BitVec.toNat_inj]

/-- **Activation.** `add` makes its price active and no other, or fails in an allocation and leaves
the active prices as they were. -/
theorem add_spec (al : Alloc) (price : Price) (h : ix.WF) :
    (∃ s, (add al price).run ix = .ok () s ∧ s.WF ∧ ∀ q, s.Active q ↔ q = price ∨ ix.Active q) ∨
      ∃ s, (add al price).run ix = .error .badAlloc s ∧ s.WF ∧ (∀ q, s.Active q ↔ ix.Active q) ∧
        ∃ site, al.fails site = true := by
  have hrun : (add al price).run ix =
      (ensure al .trieFirst (ix.child (byte price 24)) Tier.empty
          (fun first ix => ix.put (byte price 24) first) >>= fun first =>
        ensure al .trieSecond (first.child (byte price 16)) Tier.empty
          (fun second ix => ix.put (byte price 24) (first.put (byte price 16) second)) >>=
        fun second => ensure al .trieThird (second.child (byte price 8)) Third.empty
          (fun third ix => ix.put (byte price 24) (first.put (byte price 16)
            (second.put (byte price 8) third))) >>=
        fun third => modify fun ix => ix.place (byte price 24) (first.place (byte price 16)
          (second.place (byte price 8)
            { third with prices := third.prices.set (byte price 0) }))).run ix := rfl
  have failed : ∀ {s : PriceIndex} {site : AllocSite} {r : EStateM.Result Fault PriceIndex Unit},
      Same ix s (byte price 24) → al.fails site = true → r = .error .badAlloc s →
      ∃ s, r = .error .badAlloc s ∧ s.WF ∧ (∀ q, s.Active q ↔ ix.Active q) ∧
        ∃ site, al.fails site = true :=
    fun hs hf hr => ⟨_, hr, hs.wf, hs.active h, _, hf⟩
  rw [hrun]
  rcases ensure_spec (V := firstView) (b := byte price 24) al .trieFirst Tier.empty id h h
    Tier.empty_wf Tier.vals_empty (fun _ hc => hc) (Same.refl h _) with
    ⟨hf, h1⟩ | ⟨first, s1, h1, hat1, hs1⟩
  · exact Or.inr (failed (Same.refl h _) hf (run_bind_error h1))
  rcases ensure_spec (V := secondView) (b := byte price 16) al .trieSecond Tier.empty
    (first.put (byte price 16)) h hat1.wf Tier.empty_wf Tier.vals_empty
    (fun _ hc => hc.deepen hat1) hs1 with
    ⟨hf, h2⟩ | ⟨second, s2, h2, hat2, hs2⟩
  · exact Or.inr (failed hs1 hf ((run_bind_ok h1).trans (run_bind_error h2)))
  rcases ensure_spec (V := thirdView) (b := byte price 8) al .trieThird Third.empty
    (fun third => first.put (byte price 16) (second.put (byte price 8) third))
    h hat2.wf trivial (by ext x; simp [thirdView, Third.empty])
    (fun _ hc => (hc.deepen hat2).deepen hat1) hs2 with ⟨hf, h3⟩ | ⟨third, s3, h3, hat3, hs3⟩
  · exact Or.inr (failed hs2 hf
      ((run_bind_ok h1).trans ((run_bind_ok h2).trans (run_bind_error h3))))
  -- every tier is there: set the bits from the bottom up
  obtain ⟨wf2, v2⟩ := Tier.place_insert hat2.wf hat3 trivial (Third.vals_set third (byte price 0))
  obtain ⟨wf1, v1⟩ := Tier.place_insert hat1.wf hat2 wf2 v2
  obtain ⟨wf0, v0⟩ := Tier.place_insert h hat1 wf1 v1
  refine Or.inl ⟨_, ?_, wf0, active_of_vals_insert h wf0 ?_⟩
  · rw [← hs3.place]
    exact (run_bind_ok h1).trans ((run_bind_ok h2).trans (run_bind_ok h3))
  · rw [toNat_bytes price]; exact v0

theorem live_of_test {χ : Type} {V : TierView χ} {t : Tier χ} {b : Byte} {c : χ} (ht : t.WF V)
    (hb : t.children.test b = true) (hc : t.child b = some c) : V.live c := by
  obtain ⟨c', hc', hl⟩ := (ht.mask b).mp hb
  rw [hc] at hc'
  cases hc'
  exact hl

/-- With working allocations `add` succeeds. -/
theorem add_ok (place : Placement) (price : Price) (h : ix.WF) :
    ∃ s, (add (Alloc.reliable place) price).run ix = .ok () s ∧ s.WF ∧
      ∀ q, s.Active q ↔ q = price ∨ ix.Active q := by
  rcases add_spec (Alloc.reliable place) price h with hok | ⟨_, _, _, _, site, hf⟩
  · exact hok
  · simp at hf

/-- **Deactivation.** Removing an active price follows only children that are there, and removes
that price alone. -/
theorem remove_ok {price : Price} (h : ix.WF) (hp : ix.Active price) :
    ∃ s, ix.remove price = .ok s ∧ s.WF ∧ ∀ q, s.Active q ↔ ix.Active q ∧ q ≠ price := by
  obtain ⟨first, second, third, b3, hf, b2, hs, b1, ht, hb⟩ := hp
  have wf1 := h.sub _ _ hf
  have wf2 := wf1.sub _ _ hs
  have l1 := live_of_test h b3 hf
  have l2 := live_of_test wf1 b2 hs
  have l3 := live_of_test wf2 b1 ht
  obtain ⟨r2, r1, r0⟩ := low_bytes_lt price
  have hvals := Third.vals_clear third (byte price 0)
  have finish : ∀ s : PriceIndex, s.WF →
      s.vals firstView = ix.vals firstView \ {(byte price 24).toNat * firstView.bound +
        ((byte price 16).toNat * secondView.bound + ((byte price 8).toNat * thirdView.bound +
          (byte price 0).toNat))} → ∀ q, s.Active q ↔ ix.Active q ∧ q ≠ price := by
    intro s hs hv q
    rw [active_iff hs, active_iff h, hv, ← toNat_bytes price, Set.mem_sdiff,
      Set.mem_singleton_iff, BitVec.toNat_inj]
  unfold remove
  simp only [hf, hs, ht, deref_some, except_ok_bind]
  split_ifs with any3 any2 any1
  · -- the last tier keeps a price
    obtain ⟨w2, v2⟩ := Tier.put_remove (V := thirdView)
      (d := { prices := third.prices.clear (byte price 0) }) wf2 ht r0 trivial l3 any3 hvals
    obtain ⟨w1, v1⟩ := Tier.put_remove (V := secondView) (d := second.put (byte price 8) _)
      wf1 hs r1 w2 l2 l2 v2
    obtain ⟨w0, v0⟩ := Tier.put_remove (V := firstView) (d := first.put (byte price 16) _)
      h hf r2 w1 l1 l1 v1
    exact ⟨_, rfl, w0, finish _ w0 v0⟩
  all_goals
    obtain ⟨w2, v2⟩ := Tier.drop_remove (V := thirdView) wf2 ht r0
      (hvals.symm.trans (Tier.not_live_vals trivial any3))
  · obtain ⟨w1, v1⟩ := Tier.put_remove (V := secondView) (d := second.drop (byte price 8))
      wf1 hs r1 w2 l2 any2 v2
    obtain ⟨w0, v0⟩ := Tier.put_remove (V := firstView) (d := first.put (byte price 16) _)
      h hf r2 w1 l1 l1 v1
    exact ⟨_, rfl, w0, finish _ w0 v0⟩
  all_goals
    obtain ⟨w1, v1⟩ := Tier.drop_remove (V := secondView) wf1 hs r1
      (v2.symm.trans (Tier.not_live_vals w2 any2))
  · obtain ⟨w0, v0⟩ := Tier.put_remove (V := firstView) (d := first.drop (byte price 16))
      h hf r2 w1 l1 any1 v1
    exact ⟨_, rfl, w0, finish _ w0 v0⟩
  · obtain ⟨w0, v0⟩ := Tier.drop_remove (V := firstView) h hf r2
      (v1.symm.trans (Tier.not_live_vals w1 any1))
    exact ⟨_, rfl, w0, finish _ w0 v0⟩

/-! ## The best prices -/

theorem Third.isLeast {t : Third} (h : t.prices.any = true) :
    IsLeast (thirdView.vals t) t.prices.lowest.toNat := by
  refine ⟨⟨_, Mask.test_lowest h, rfl⟩, ?_⟩
  rintro _ ⟨b, hb, rfl⟩
  exact Mask.lowest_le hb

theorem Third.isGreatest {t : Third} (h : t.prices.any = true) :
    IsGreatest (thirdView.vals t) t.prices.highest.toNat := by
  refine ⟨⟨_, Mask.test_highest h, rfl⟩, ?_⟩
  rintro _ ⟨b, hb, rfl⟩
  exact Mask.le_highest hb

/-- An index without a masked child has no active price. -/
theorem not_active_of_not_any (h : ix.children.any = false) (price : Price) :
    ¬ix.Active price := by
  rintro ⟨_, _, _, hb, _⟩
  rw [Bool.eq_false_iff] at h
  exact h ((Mask.any_iff _).mpr ⟨_, hb⟩)

theorem isLeast_active {p : Price} (h : ix.WF) (hp : IsLeast (ix.vals firstView) p.toNat) :
    IsLeast {q | ix.Active q} p :=
  ⟨(active_iff h p).mpr hp.1, fun q hq => hp.2 ((active_iff h q).mp hq)⟩

theorem isGreatest_active {p : Price} (h : ix.WF)
    (hp : IsGreatest (ix.vals firstView) p.toNat) : IsGreatest {q | ix.Active q} p :=
  ⟨(active_iff h p).mpr hp.1, fun q hq => hp.2 ((active_iff h q).mp hq)⟩

/-- **Best price, upwards.** -/
theorem minimum_spec (h : ix.WF) :
    (ix.minimum = .ok none ∧ ∀ p, ¬ix.Active p) ∨
      ∃ p, ix.minimum = .ok (some p) ∧ IsLeast {q | ix.Active q} p := by
  unfold minimum find
  by_cases hany : ix.children.any = true
  · obtain ⟨first, hf, wf1, l1, g0⟩ := Tier.lowest_child h hany
    obtain ⟨second, hs, wf2, l2, g1⟩ := Tier.lowest_child (V := secondView) wf1 l1
    obtain ⟨third, ht, -, l3, g2⟩ := Tier.lowest_child (V := thirdView) wf2 l2
    refine Or.inr ⟨ofBytes ix.children.lowest first.children.lowest second.children.lowest
      third.prices.lowest, ?_, isLeast_active h ?_⟩
    · simp only [hany, hf, hs, ht, deref_some, except_ok_bind, Bool.not_true, Bool.false_eq_true,
        if_false]
      rfl
    · rw [toNat_ofBytes]
      exact g0 _ (g1 _ (g2 _ (Third.isLeast l3)))
  · rw [Bool.not_eq_true] at hany
    exact Or.inl ⟨by simp [hany]; rfl, not_active_of_not_any hany⟩

/-- **Best price, downwards.** -/
theorem maximum_spec (h : ix.WF) :
    (ix.maximum = .ok none ∧ ∀ p, ¬ix.Active p) ∨
      ∃ p, ix.maximum = .ok (some p) ∧ IsGreatest {q | ix.Active q} p := by
  unfold maximum find
  by_cases hany : ix.children.any = true
  · obtain ⟨first, hf, wf1, l1, g0⟩ := Tier.highest_child h hany
    obtain ⟨second, hs, wf2, l2, g1⟩ := Tier.highest_child (V := secondView) wf1 l1
    obtain ⟨third, ht, -, l3, g2⟩ := Tier.highest_child (V := thirdView) wf2 l2
    refine Or.inr ⟨ofBytes ix.children.highest first.children.highest second.children.highest
      third.prices.highest, ?_, isGreatest_active h ?_⟩
    · simp only [hany, hf, hs, ht, deref_some, except_ok_bind, Bool.not_true, Bool.false_eq_true,
        if_false, if_true]
      rfl
    · rw [toNat_ofBytes]
      exact g0 _ (g1 _ (g2 _ (Third.isGreatest l3)))
  · rw [Bool.not_eq_true] at hany
    exact Or.inl ⟨by simp [hany]; rfl, not_active_of_not_any hany⟩

end PriceIndex

end Lob
