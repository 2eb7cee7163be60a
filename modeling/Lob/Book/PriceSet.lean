import Lob.Book.PriceIndexOps
import Mathlib.Data.Finset.Basic

/-!
# The price index over runs

A run adds prices, removes prices that are there, and resets an index without prices. The masks of
every index that a run reaches lead to exactly the prices that were added and not removed. Where no
allocation has failed, no tier is left without a price, so that an index without prices is the initial
one.
-/

namespace Lob

open Basis

/-! ## Tiers without a spare child -/

theorem Mask.set_of_test {mask : Mask} {value : Byte} (h : mask.test value = true) :
    mask.set value = mask := by
  have hword : mask (maskWord value) ||| maskBit value = mask (maskWord value) := by
    refine BitVec.eq_of_getLsbD_eq fun bit hbit => ?_
    rw [BitVec.getLsbD_or, getLsbD_maskBit value hbit]
    by_cases e : bit = value.toNat % 64
    · rw [e]
      unfold test at h
      rw [h]
      rfl
    · simp [e]
  unfold set
  rw [hword, Function.update_eq_self]

namespace Tier

variable {χ : Type} {t : Tier χ} {b : Byte} {c : χ} {P : χ → Prop}

/-- Placing what is there changes nothing. -/
theorem place_self (hc : t.child b = some c) (hb : t.children.test b = true) : t.place b c = t := by
  have hput : t.put b c = t := by
    unfold put
    rw [← hc, Function.update_eq_self]
  unfold place
  rw [hput, Mask.set_of_test hb]

/-- Every child of the tier is one with this property. -/
def Full (P : χ → Prop) (t : Tier χ) : Prop := ∀ b c, t.child b = some c → P c

theorem empty_full : (empty : Tier χ).Full P := fun _ _ h => nomatch h

theorem Full.put (h : t.Full P) (hc : P c) : (t.put b c).Full P := by
  intro b' c' hc'
  by_cases e : b' = b
  · rw [e, put_child_self] at hc'
    cases hc'
    exact hc
  · rw [put_child_of_ne e] at hc'
    exact h b' c' hc'

theorem Full.drop (h : t.Full P) : (t.drop b).Full P := by
  intro b' c' hc'
  by_cases e : b' = b
  · rw [e, drop_child_self] at hc'
    cases hc'
  · rw [drop_child_of_ne e] at hc'
    exact h b' c' hc'

/-- A tier that is occupied, and none of whose children is spare. -/
def Occupied (P : χ → Prop) (t : Tier χ) : Prop := t.children.any = true ∧ t.Full P

theorem Full.place_occupied (h : t.Full P) (hc : P c) : (t.place b c).Occupied P :=
  ⟨(Mask.any_iff _).mpr ⟨b, by show (t.children.set b).test b = true; simp [Mask.test_set]⟩, h.put hc⟩

/-- The child at `b`, or an empty one where there is none. -/
theorem Full.getD {T : Tier (Tier χ)} (h : T.Full (Occupied P)) :
    ((T.child b).getD Tier.empty).Full P := by
  cases hc : T.child b with
  | none => exact empty_full
  | some t => exact (h b t hc).2

/-- A tier that marks nothing and has no spare child is the empty one. -/
theorem Full.eq_empty {V : TierView χ} (h : t.Full V.live) (hwf : t.WF V)
    (hany : t.children.any = false) : t = empty := by
  have hnot : ∀ b, ¬t.children.test b = true := by
    intro b hb
    rw [(Mask.any_iff _).mpr ⟨b, hb⟩] at hany
    cases hany
  have hchild : t.child = fun _ => none := by
    funext b
    cases hc : t.child b with
    | none => rfl
    | some c => exact absurd ((hwf.mask b).mpr ⟨c, hc, h b c hc⟩) (hnot b)
  have hmask : t.children = Mask.empty := by
    funext word
    by_contra hne
    rw [(Mask.any_iff_word _).mpr ⟨word, hne⟩] at hany
    cases hany
  obtain ⟨children, child⟩ := t
  exact congrArg₂ Tier.mk hmask hchild

end Tier

namespace PriceIndex

variable {ix ix' : PriceIndex} {S : Finset Price} {price : Price} {b3 b2 b1 b0 : Byte} {first : First}
  {second : Second} {third : Third} {clean : Bool}

/-! ## Bytes and prices -/

theorem byte_ofBytes (b3 b2 b1 b0 : Byte) :
    byte (ofBytes b3 b2 b1 b0) 24 = b3 ∧ byte (ofBytes b3 b2 b1 b0) 16 = b2 ∧
      byte (ofBytes b3 b2 b1 b0) 8 = b1 ∧ byte (ofBytes b3 b2 b1 b0) 0 = b0 := by
  have h : (ofBytes b3 b2 b1 b0).toNat = b3.toNat * (256 * (256 * 256)) +
      (b2.toNat * (256 * 256) + (b1.toNat * 256 + b0.toNat)) := toNat_ofBytes b3 b2 b1 b0
  have h3 := b3.isLt
  have h2 := b2.isLt
  have h1 := b1.isLt
  have h0 := b0.isLt
  refine ⟨?_, ?_, ?_, ?_⟩
  all_goals
    apply BitVec.eq_of_toNat_eq
    rw [toNat_byte, h]
    omega

/-! ## The masks of the tiers -/

/-- Every bit of the last tier is a price. -/
theorem active_ofBytes (h : ix.WF) (hfirst : ix.child b3 = some first)
    (hsecond : first.child b2 = some second) (hthird : second.child b1 = some third) :
    ix.Active (ofBytes b3 b2 b1 b0) ↔ third.prices.test b0 = true := by
  constructor
  · obtain ⟨e3, e2, e1, e0⟩ := byte_ofBytes b3 b2 b1 b0
    rintro ⟨first', second', third', _, hfirst', _, hsecond', _, hthird', hb⟩
    rw [e3, hfirst] at hfirst'
    cases hfirst'
    rw [e2, hsecond] at hsecond'
    cases hsecond'
    rw [e1, hthird] at hthird'
    cases hthird'
    rw [e0] at hb
    exact hb
  · intro hb
    rw [active_iff h, toNat_ofBytes]
    exact ⟨b3, first, hfirst, _, ⟨b2, second, hsecond, _,
      ⟨b1, third, hthird, _, third_vals.mpr hb, rfl⟩,
      rfl⟩, rfl⟩

theorem exists_of_second (h : ix.WF) (hfirst : ix.child b3 = some first)
    (hsecond : first.child b2 = some second) (hb : second.children.test b1 = true) :
    ∃ b0, ix.Active (ofBytes b3 b2 b1 b0) := by
  obtain ⟨third, hthird, hlive⟩ := (((h.sub _ _ hfirst).sub _ _ hsecond).mask b1).mp hb
  obtain ⟨b0, hb0⟩ := (Mask.any_iff _).mp hlive
  exact ⟨b0, (active_ofBytes h hfirst hsecond hthird).mpr hb0⟩

theorem exists_of_first (h : ix.WF) (hfirst : ix.child b3 = some first)
    (hb : first.children.test b2 = true) : ∃ b1 b0, ix.Active (ofBytes b3 b2 b1 b0) := by
  obtain ⟨second, hsecond, hlive⟩ := ((h.sub _ _ hfirst).mask b2).mp hb
  obtain ⟨b1, hb1⟩ := (Mask.any_iff _).mp hlive
  exact ⟨b1, exists_of_second h hfirst hsecond hb1⟩

theorem exists_of_root (h : ix.WF) (hb : ix.children.test b3 = true) :
    ∃ b2 b1 b0, ix.Active (ofBytes b3 b2 b1 b0) := by
  obtain ⟨first, hfirst, hlive⟩ := (h.mask b3).mp hb
  obtain ⟨b2, hb2⟩ := (Mask.any_iff _).mp hlive
  exact ⟨b2, exists_of_first h hfirst hb2⟩

/-- At every tier a bit is set exactly where there is a child and a price of `S` below it; the bits of
the last tier are the prices. -/
structure Marks (ix : PriceIndex) (S : Finset Price) : Prop where
  root : ∀ b3, ix.children.test b3 = true ↔
    (ix.child b3).isSome ∧ ∃ price ∈ S, byte price 24 = b3
  first : ∀ b3 first, ix.child b3 = some first → ∀ b2, first.children.test b2 = true ↔
    (first.child b2).isSome ∧ ∃ price ∈ S, byte price 24 = b3 ∧ byte price 16 = b2
  second : ∀ b3 first b2 second, ix.child b3 = some first → first.child b2 = some second →
    ∀ b1, second.children.test b1 = true ↔ (second.child b1).isSome ∧
      ∃ price ∈ S, byte price 24 = b3 ∧ byte price 16 = b2 ∧ byte price 8 = b1
  third : ∀ b3 first b2 second b1 third, ix.child b3 = some first → first.child b2 = some second →
    second.child b1 = some third →
    ∀ b0, third.prices.test b0 = true ↔ ofBytes b3 b2 b1 b0 ∈ S

theorem marks_of_active (h : ix.WF) (hS : ∀ price, ix.Active price ↔ price ∈ S) : Marks ix S where
  root b3 := by
    constructor
    · intro hb
      obtain ⟨first, hfirst, _⟩ := (h.mask b3).mp hb
      obtain ⟨b2, b1, b0, hactive⟩ := exists_of_root h hb
      rw [hfirst]
      exact ⟨rfl, _, (hS _).mp hactive, (byte_ofBytes b3 b2 b1 b0).1⟩
    · rintro ⟨_, price, hprice, rfl⟩
      obtain ⟨_, _, _, hb, _⟩ := (hS price).mpr hprice
      exact hb
  first b3 first hfirst b2 := by
    constructor
    · intro hb
      obtain ⟨second, hsecond, _⟩ := ((h.sub _ _ hfirst).mask b2).mp hb
      obtain ⟨b1, b0, hactive⟩ := exists_of_first h hfirst hb
      obtain ⟨e3, e2, _⟩ := byte_ofBytes b3 b2 b1 b0
      rw [hsecond]
      exact ⟨rfl, _, (hS _).mp hactive, e3, e2⟩
    · rintro ⟨_, price, hprice, rfl, rfl⟩
      obtain ⟨first', _, _, _, hfirst', hb, _⟩ := (hS price).mpr hprice
      obtain rfl := Option.some.inj (hfirst.symm.trans hfirst')
      exact hb
  second b3 first b2 second hfirst hsecond b1 := by
    constructor
    · intro hb
      obtain ⟨third, hthird, _⟩ := (((h.sub _ _ hfirst).sub _ _ hsecond).mask b1).mp hb
      obtain ⟨b0, hactive⟩ := exists_of_second h hfirst hsecond hb
      obtain ⟨e3, e2, e1, _⟩ := byte_ofBytes b3 b2 b1 b0
      rw [hthird]
      exact ⟨rfl, _, (hS _).mp hactive, e3, e2, e1⟩
    · rintro ⟨_, price, hprice, rfl, rfl, rfl⟩
      obtain ⟨first', second', _, _, hfirst', _, hsecond', hb, _⟩ := (hS price).mpr hprice
      obtain rfl := Option.some.inj (hfirst.symm.trans hfirst')
      obtain rfl := Option.some.inj (hsecond.symm.trans hsecond')
      exact hb
  third b3 first b2 second b1 third hfirst hsecond hthird b0 := by
    rw [← hS, active_ofBytes h hfirst hsecond hthird]

/-! ## Adding and removing -/

/-- The tier that `ensure` returns, and what it stores. -/
theorem ensure_ok_eq {χ : Type} {al : Alloc} {site : AllocSite} {slot : Option χ} {fresh c : χ}
    {store : χ → PriceIndex → PriceIndex} {s s' : PriceIndex}
    (run : (ensure al site slot fresh store).run s = .ok c s') :
    c = slot.getD fresh ∧ (s' = s ∨ s' = store c s) := by
  cases slot with
  | some c' =>
    cases run
    exact ⟨rfl, Or.inl rfl⟩
  | none =>
    rw [ensure_none rfl] at run
    split_ifs at run
    cases run
    exact ⟨rfl, Or.inr rfl⟩

/-- What an `add` that returns has stored. -/
theorem add_ok_eq {al : Alloc} (run : (add al price).run ix = .ok () ix') :
    ∃ first second third, first = (ix.child (byte price 24)).getD Tier.empty ∧
      second = (first.child (byte price 16)).getD Tier.empty ∧
      third = (second.child (byte price 8)).getD Third.empty ∧
      ix' = ix.place (byte price 24) (first.place (byte price 16) (second.place (byte price 8)
        { third with prices := third.prices.set (byte price 0) })) := by
  have hput : ∀ {s s' : PriceIndex} {x : First}, s' = s ∨ s' = s.put (byte price 24) x →
      ∀ y, s'.place (byte price 24) y = s.place (byte price 24) y := by
    rintro s s' x (rfl | rfl) y
    · rfl
    · exact Tier.put_place
  unfold add at run
  rw [run_get_bind] at run
  obtain ⟨first, s₁, run₁, run⟩ := of_run_bind_ok run
  obtain ⟨second, s₂, run₂, run⟩ := of_run_bind_ok run
  obtain ⟨third, s₃, run₃, run⟩ := of_run_bind_ok run
  obtain ⟨hfirst, hs₁⟩ := ensure_ok_eq run₁
  obtain ⟨hsecond, hs₂⟩ := ensure_ok_eq run₂
  obtain ⟨hthird, hs₃⟩ := ensure_ok_eq run₃
  refine ⟨first, second, third, hfirst, hsecond, hthird, ?_⟩
  rw [← hput hs₁, ← hput hs₂, ← hput hs₃]
  cases run
  rfl

/-- Adding a price that is there changes nothing, and allocates nothing. -/
theorem add_of_active (al : Alloc) (hprice : ix.Active price) : (add al price).run ix = .ok () ix := by
  obtain ⟨first, second, third, hb3, hfirst, hb2, hsecond, hb1, hthird, hb0⟩ := hprice
  have hrun : (add al price).run ix = .ok () (ix.place (byte price 24) (first.place (byte price 16)
      (second.place (byte price 8) { third with prices := third.prices.set (byte price 0) }))) := by
    unfold add
    rw [run_get_bind,
      run_bind_ok (ensure_some hfirst), run_bind_ok (ensure_some hsecond),
      run_bind_ok (ensure_some hthird)]
    rfl
  rw [hrun, Mask.set_of_test hb0, Tier.place_self hthird hb1, Tier.place_self hsecond hb2,
    Tier.place_self hfirst hb3]

/-- A last tier that holds a price. -/
def Third.Occupied (third : Third) : Prop := third.prices.any = true

/-- Below every child there is a price. -/
abbrev Full (ix : PriceIndex) : Prop := Tier.Full (Tier.Occupied (Tier.Occupied Third.Occupied)) ix

theorem Full.add {al : Alloc} (h : ix.Full) (run : (add al price).run ix = .ok () ix') : ix'.Full := by
  obtain ⟨first, second, third, hfirst, hsecond, _, rfl⟩ := add_ok_eq run
  have hfull₁ : first.Full (Tier.Occupied Third.Occupied) := hfirst ▸ h.getD
  have hfull₂ : second.Full Third.Occupied := hsecond ▸ hfull₁.getD
  have hoccupied : Third.Occupied { third with prices := third.prices.set (byte price 0) } :=
    (Mask.any_iff _).mpr ⟨byte price 0, by simp [Mask.test_set]⟩
  exact h.put (hfull₁.place_occupied (hfull₂.place_occupied hoccupied))

theorem Full.remove (h : ix.Full) (hprice : ix.Active price) (run : ix.remove price = .ok ix') :
    ix'.Full := by
  obtain ⟨first, second, third, _, hfirst, _, hsecond, _, hthird, _⟩ := hprice
  obtain ⟨hany₁, hfull₁⟩ := h _ _ hfirst
  obtain ⟨hany₂, hfull₂⟩ := hfull₁ _ _ hsecond
  unfold PriceIndex.remove at run
  simp only [hfirst, hsecond, hthird, deref_some, except_ok_bind] at run
  split_ifs at run with any3 any2 any1
  · cases run
    exact h.put ⟨hany₁, hfull₁.put ⟨hany₂, hfull₂.put any3⟩⟩
  · cases run
    exact h.put ⟨hany₁, hfull₁.put ⟨any2, hfull₂.drop⟩⟩
  · cases run
    exact h.put ⟨any1, hfull₁.drop⟩
  · cases run
    exact h.drop

/-- An index without prices and without spare tiers is the initial one. -/
theorem Full.eq_reset (h : ix.Full) (hwf : ix.WF) (hnone : ∀ price, ¬ix.Active price) :
    ix = reset := by
  have hlive : Tier.Full firstView.live ix := fun b first hfirst => (h b first hfirst).1
  refine hlive.eq_empty hwf (Bool.eq_false_iff.mpr fun hany => ?_)
  obtain ⟨b3, hb⟩ := (Mask.any_iff _).mp hany
  obtain ⟨b2, b1, b0, hactive⟩ := exists_of_root hwf hb
  exact hnone _ hactive

/-! ## Runs -/

/-- The indices that runs reach, with the prices added and not removed. Only a price that is there is
removed, and only an index without prices is reset. A run is `clean` while no allocation has failed
since the start or the last reset. -/
inductive Reached : Bool → PriceIndex → Finset Price → Prop
  | start : Reached true .reset ∅
  | add {clean : Bool} {ix ix' : PriceIndex} {S : Finset Price} (al : Alloc) (price : Price)
      (h : Reached clean ix S) (run : (PriceIndex.add al price).run ix = .ok () ix') :
      Reached clean ix' (insert price S)
  | addThrows {clean : Bool} {ix ix' : PriceIndex} {S : Finset Price} {fault : Fault} (al : Alloc)
      (price : Price) (h : Reached clean ix S)
      (run : (PriceIndex.add al price).run ix = .error fault ix') : Reached false ix' S
  | remove {clean : Bool} {ix ix' : PriceIndex} {S : Finset Price} {price : Price}
      (h : Reached clean ix S) (hprice : price ∈ S) (run : ix.remove price = .ok ix') :
      Reached clean ix' (S.erase price)
  | reset {clean : Bool} {ix : PriceIndex} (h : Reached clean ix ∅) : Reached true .reset ∅

/-- What runs keep. -/
structure Shows (clean : Bool) (ix : PriceIndex) (S : Finset Price) : Prop where
  wf : ix.WF
  active : ∀ price, ix.Active price ↔ price ∈ S
  full : clean = true → ix.Full

theorem reset_shows : Shows true .reset ∅ where
  wf := reset_wf
  active price := iff_of_false (not_active_reset price) (Finset.notMem_empty price)
  full _ := Tier.empty_full

/-- The invariant of runs, by induction on them. -/
theorem Reached.shows (h : Reached clean ix S) : Shows clean ix S := by
  induction h with
  | start => exact reset_shows
  | @add clean ix ix' S al price _ run ih =>
    rcases add_spec al price ih.wf with ⟨s, run', hwf, hactive⟩ | ⟨s, run', _⟩
    · rw [run] at run'
      cases run'
      refine ⟨hwf, fun q => ?_, fun hc => (ih.full hc).add run⟩
      rw [hactive, ih.active, Finset.mem_insert]
    · rw [run] at run'
      cases run'
  | @addThrows clean ix ix' S fault al price _ run ih =>
    rcases add_spec al price ih.wf with ⟨s, run', _⟩ | ⟨s, run', hwf, hactive, _⟩
    · rw [run] at run'
      cases run'
    · rw [run] at run'
      cases run'
      exact ⟨hwf, fun q => (hactive q).trans (ih.active q), fun hc => nomatch hc⟩
  | @remove clean ix ix' S price _ hprice run ih =>
    have hactive := (ih.active price).mpr hprice
    obtain ⟨s, run', hwf, hs⟩ := remove_ok ih.wf hactive
    rw [run] at run'
    cases run'
    refine ⟨hwf, fun q => ?_, fun hc => (ih.full hc).remove hactive run⟩
    rw [hs, ih.active, Finset.mem_erase, and_comm]
  | reset => exact reset_shows

/-- The extremes of the index are those of the set. -/
def Extremes (ix : PriceIndex) (S : Finset Price) : Prop :=
  (S = ∅ ∧ ix.minimum = .ok none ∧ ix.maximum = .ok none) ∨
    ∃ least greatest, ix.minimum = .ok (some least) ∧ IsLeast (S : Set Price) least ∧
      ix.maximum = .ok (some greatest) ∧ IsGreatest (S : Set Price) greatest

theorem Shows.extremes (h : Shows clean ix S) : Extremes ix S := by
  have hS : {price | ix.Active price} = (S : Set Price) := Set.ext h.active
  rcases minimum_spec h.wf with ⟨hmin, hnone⟩ | ⟨least, hmin, hleast⟩
  · have hempty : S = ∅ := Finset.eq_empty_of_forall_notMem fun price hp =>
      hnone price ((h.active price).mpr hp)
    rcases maximum_spec h.wf with ⟨hmax, _⟩ | ⟨greatest, _, hgreatest⟩
    · exact Or.inl ⟨hempty, hmin, hmax⟩
    · exact absurd hgreatest.1 (hnone greatest)
  · rcases maximum_spec h.wf with ⟨_, hnone⟩ | ⟨greatest, hmax, hgreatest⟩
    · exact absurd hleast.1 (hnone least)
    · rw [hS] at hleast hgreatest
      exact Or.inr ⟨least, greatest, hmin, hleast, hmax, hgreatest⟩

theorem Extremes.eq (h : Extremes ix S) {least greatest : Price}
    (hleast : least ∈ S ∧ ∀ price ∈ S, least ≤ price)
    (hgreatest : greatest ∈ S ∧ ∀ price ∈ S, price ≤ greatest) :
    ix.minimum = .ok (some least) ∧ ix.maximum = .ok (some greatest) := by
  rcases h with ⟨rfl, _⟩ | ⟨least', greatest', hmin, hleast', hmax, hgreatest'⟩
  · exact absurd hleast.1 (Finset.notMem_empty least)
  · rw [BitVec.le_antisymm (hleast.2 _ hleast'.1) (hleast'.2 hleast.1),
      BitVec.le_antisymm (hgreatest'.2 hgreatest.1) (hgreatest.2 _ hgreatest'.1)]
    exact ⟨hmin, hmax⟩

/-- **The price index is an ordered set of prices.** In every index that a run reaches the extremes are
those of the set and the masks mark exactly its prices; an `add` returns or throws `bad_alloc`, and
changes nothing where its price is there; a `remove` of a price that is there returns. Where no
allocation has failed, removing the last price gives the initial index. -/
theorem reached_ordered_set (h : Reached clean ix S) :
    Extremes ix S ∧ Marks ix S ∧
      (∀ al price, (∃ ix', (add al price).run ix = .ok () ix') ∨
        ∃ ix', (add al price).run ix = .error .badAlloc ix' ∧ ∃ site, al.fails site = true) ∧
      (∀ al, ∀ price ∈ S, (add al price).run ix = .ok () ix) ∧
      (∀ price ∈ S, ∃ ix', ix.remove price = .ok ix') ∧
      (clean = true → ∀ price, S = {price} → ix.remove price = .ok .reset) := by
  have hshows := h.shows
  refine ⟨hshows.extremes, marks_of_active hshows.wf hshows.active, fun al price => ?_,
    fun al price hprice => add_of_active al ((hshows.active price).mpr hprice),
    fun price hprice => ?_, fun hc price hS => ?_⟩
  · rcases add_spec al price hshows.wf with ⟨ix', run, _⟩ | ⟨ix', run, _, _, hfails⟩
    · exact Or.inl ⟨ix', run⟩
    · exact Or.inr ⟨ix', run, hfails⟩
  · obtain ⟨ix', run, _⟩ := remove_ok hshows.wf ((hshows.active price).mpr hprice)
    exact ⟨ix', run⟩
  · have hprice : price ∈ S := by
      rw [hS]
      exact Finset.mem_singleton_self price
    obtain ⟨ix', run, _⟩ := remove_ok hshows.wf ((hshows.active price).mpr hprice)
    have hafter := (Reached.remove h hprice run).shows
    have hnone : ∀ q, ¬ix'.Active q := by
      intro q
      rw [hafter.active, hS, Finset.erase_singleton]
      exact Finset.notMem_empty q
    rw [run, (hafter.full hc).eq_reset hafter.wf hnone]

/-- Four prices: two in the same last tier but in different words of its mask, and two in other subtrees
of the first tier. Without its least price the index starts at the next one. -/
theorem reached_ordered_set_four :
    let S : Finset Price := {5, 71, 0x01000005, 0xFF000047}
    ∃ ix ix', Reached true ix S ∧ ix.minimum = .ok (some 5) ∧ ix.maximum = .ok (some 0xFF000047) ∧
      (add (.reliable .bump) 71).run ix = .ok () ix ∧ ix.remove 5 = .ok ix' ∧
      ix'.minimum = .ok (some 71) ∧ ix'.maximum = .ok (some 0xFF000047) := by
  intro S
  obtain ⟨ix₁, run₁, hwf₁, _⟩ := add_ok .bump 0xFF000047 reset_wf
  obtain ⟨ix₂, run₂, hwf₂, _⟩ := add_ok .bump 0x01000005 hwf₁
  obtain ⟨ix₃, run₃, hwf₃, _⟩ := add_ok .bump 71 hwf₂
  obtain ⟨ix, run, _⟩ := add_ok .bump 5 hwf₃
  have h : Reached true ix S := .add _ 5 (.add _ 71 (.add _ _ (.add _ _ .start run₁) run₂) run₃) run
  obtain ⟨hextremes, _, _, hadd, hremove, _⟩ := reached_ordered_set h
  obtain ⟨ix', run'⟩ := hremove 5 (by decide)
  obtain ⟨hmin, hmax⟩ := @Extremes.eq ix S hextremes 5 0xFF000047 (by simp [S]) (by simp [S])
  obtain ⟨hextremes', _⟩ := reached_ordered_set (.remove h (by decide) run')
  obtain ⟨hmin', hmax'⟩ :=
    @Extremes.eq ix' (S.erase 5) hextremes' 71 0xFF000047 (by simp [S]) (by simp [S])
  exact ⟨ix, ix', h, hmin, hmax, hadd _ 71 (by decide), run', hmin', hmax'⟩

end PriceIndex

end Lob
