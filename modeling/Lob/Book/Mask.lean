import Mathlib.Tactic.NormNum
import Mathlib.Tactic.Ring
import Lob.Book.PriceIndex

/-!
# Masks as sets of bytes

`test` reads a mask as a set of bytes: `set` and `clear` add and remove one byte, `any` decides
whether there is one, and the word loops of `lowest` and `highest` find the extremes.
-/

namespace Lob

/-- The byte of bit `bit` of word `word`. -/
def byteAt (word : Fin 4) (bit : ℕ) : Byte := BitVec.ofNat 8 (word.val * 64 + bit)

theorem toNat_byteAt {word : Fin 4} {bit : ℕ} (h : bit < 64) :
    (byteAt word bit).toNat = word.val * 64 + bit := by
  unfold byteAt
  rw [BitVec.toNat_ofNat]
  omega

theorem maskWord_byteAt {word : Fin 4} {bit : ℕ} (h : bit < 64) :
    maskWord (byteAt word bit) = word := by
  apply Fin.ext
  show (byteAt word bit).toNat / 64 = word.val
  rw [toNat_byteAt h]
  omega

theorem toNat_split (value : Byte) :
    value.toNat = (maskWord value).val * 64 + value.toNat % 64 := by
  show value.toNat = value.toNat / 64 * 64 + value.toNat % 64
  omega

theorem eq_iff_word_bit {v w : Byte} :
    v = w ↔ maskWord v = maskWord w ∧ v.toNat % 64 = w.toNat % 64 := by
  constructor
  · rintro rfl; exact ⟨rfl, rfl⟩
  · rintro ⟨h1, h2⟩
    apply BitVec.eq_of_toNat_eq
    rw [toNat_split v, toNat_split w, h1, h2]

theorem getLsbD_maskBit (value : Byte) {bit : ℕ} (h : bit < 64) :
    (maskBit value).getLsbD bit = decide (bit = value.toNat % 64) := by
  unfold maskBit
  rw [BitVec.getLsbD_shiftLeft, BitVec.getLsbD_one]
  by_cases e : bit = value.toNat % 64
  · simp [e]; omega
  · simp [e]; omega

namespace Mask

@[simp] theorem test_empty (value : Byte) : empty.test value = false := by
  simp [test, empty]

theorem test_set (mask : Mask) (value w : Byte) :
    (mask.set value).test w = (decide (w = value) || mask.test w) := by
  have hlt : w.toNat % 64 < 64 := Nat.mod_lt _ (by norm_num)
  unfold test set
  by_cases hw : maskWord w = maskWord value
  · rw [hw, Function.update_self, BitVec.getLsbD_or, getLsbD_maskBit value hlt]
    rw [Bool.or_comm]
    congr 1
    simp [eq_iff_word_bit, hw]
  · rw [Function.update_of_ne hw]
    simp [eq_iff_word_bit, hw]

theorem test_clear (mask : Mask) (value w : Byte) :
    (mask.clear value).test w = (mask.test w && !decide (w = value)) := by
  have hlt : w.toNat % 64 < 64 := Nat.mod_lt _ (by norm_num)
  unfold test clear
  by_cases hw : maskWord w = maskWord value
  · rw [hw, Function.update_self, BitVec.getLsbD_and, BitVec.getLsbD_not,
      getLsbD_maskBit value hlt]
    congr 1
    simp [eq_iff_word_bit, hw, hlt]
  · rw [Function.update_of_ne hw]
    simp [eq_iff_word_bit, hw]

theorem any_iff_word (mask : Mask) : mask.any = true ↔ ∃ word, mask word ≠ 0#64 := by
  unfold any
  simp only [bne_iff_ne, ne_eq, BitVec.or_eq_zero_iff, Fin.exists_fin_succ]
  simp only [Fin.succ_zero_eq_one, Fin.succ_one_eq_two, IsEmpty.exists_iff, or_false]
  tauto

theorem test_byteAt {mask : Mask} {word : Fin 4} {bit : ℕ} (h : bit < 64) :
    mask.test (byteAt word bit) = (mask word).getLsbD bit := by
  unfold test
  rw [maskWord_byteAt h, toNat_byteAt h, Nat.mul_add_mod', Nat.mod_eq_of_lt h]

theorem exists_test_of_word {mask : Mask} {word : Fin 4} (h : mask word ≠ 0#64) :
    ∃ value, mask.test value = true := by
  have hbit := BitVec.getLsbD_true_ctz_of_ne_zero h
  have hlt : (mask word).ctz.toNat < 64 := BitVec.lt_of_getLsbD hbit
  refine ⟨byteAt word (mask word).ctz.toNat, ?_⟩
  rw [test_byteAt hlt, hbit]

theorem word_ne_zero_of_test {mask : Mask} {value : Byte} (h : mask.test value = true) :
    mask (maskWord value) ≠ 0#64 := by
  intro h0
  unfold test at h
  rw [h0] at h
  simp at h

theorem any_iff (mask : Mask) : mask.any = true ↔ ∃ value, mask.test value = true := by
  rw [any_iff_word]
  constructor
  · rintro ⟨word, h⟩; exact exists_test_of_word h
  · rintro ⟨value, h⟩; exact ⟨_, word_ne_zero_of_test h⟩

/-! ## The lowest and the highest bit -/

theorem ctz_lt {x : BitVec 64} (hx : x ≠ 0#64) : x.ctz.toNat < 64 :=
  BitVec.lt_of_getLsbD (BitVec.getLsbD_true_ctz_of_ne_zero hx)

theorem ctz_le {x : BitVec 64} {bit : ℕ} (h : x.getLsbD bit = true) : x.ctz.toNat ≤ bit := by
  by_contra hlt
  rw [BitVec.getLsbD_false_of_lt_ctz (Nat.lt_of_not_le hlt)] at h
  exact Bool.false_ne_true h

theorem le_clz {x : BitVec 64} {bit : ℕ} (h : x.getLsbD bit = true) :
    bit ≤ 63 - x.clz.toNat := by
  by_contra hlt
  have hx : x.toNat < 2 ^ bit :=
    lt_of_lt_of_le BitVec.toNat_lt_two_pow_sub_clz (Nat.pow_le_pow_right (by norm_num) (by omega))
  have := Nat.testBit_lt_two_pow hx
  rw [BitVec.testBit_toNat, h] at this
  exact Bool.true_eq_false_eq_False this

theorem mem_rest {mask : Mask} {word : Fin 4} {rest : List (Fin 4)} (h : ¬mask word ≠ 0#64)
    (hex : ∃ w ∈ word :: rest, mask w ≠ 0#64) : ∃ w ∈ rest, mask w ≠ 0#64 := by
  obtain ⟨w, hw, hne⟩ := hex
  rcases List.mem_cons.mp hw with rfl | hrest
  · exact absurd hne h
  · exact ⟨w, hrest, hne⟩

/-- What a loop finds past a word without bytes. -/
theorem skips {mask : Mask} {word : Fin 4} {rest : List (Fin 4)} {found : Byte} {P : Byte → Prop}
    (h : ¬mask word ≠ 0#64) (hrest : mask.test found = true ∧ maskWord found ∈ rest ∧
      ∀ value, maskWord value ∈ rest → mask.test value = true → P value) :
    mask.test found = true ∧ maskWord found ∈ word :: rest ∧
      ∀ value, maskWord value ∈ word :: rest → mask.test value = true → P value := by
  refine ⟨hrest.1, List.mem_cons_of_mem _ hrest.2.1, fun value hword htest => ?_⟩
  rcases List.mem_cons.mp hword with hv | hv
  · exact absurd (hv ▸ word_ne_zero_of_test htest) h
  · exact hrest.2.2 value hv htest

/-- The upward loop finds the least byte of the words it runs over. -/
theorem lowestIn_spec (mask : Mask) : ∀ words : List (Fin 4), words.Pairwise (· < ·) →
    (∃ word ∈ words, mask word ≠ 0#64) →
      mask.test (lowestIn mask words) = true ∧ maskWord (lowestIn mask words) ∈ words ∧
        ∀ value, maskWord value ∈ words → mask.test value = true →
          (lowestIn mask words).toNat ≤ value.toNat := by
  intro words
  induction words with
  | nil => rintro _ ⟨word, hmem, _⟩; simp at hmem
  | cons word rest ih =>
    intro hsort hex
    have hlater := (List.pairwise_cons.mp hsort).1
    by_cases h : mask word ≠ 0#64
    · have hlow : lowestIn mask (word :: rest) = byteAt word (mask word).ctz.toNat := by
        unfold lowestIn; rw [if_pos h]; rfl
      have hlt := ctz_lt h
      rw [hlow, test_byteAt hlt, maskWord_byteAt hlt, toNat_byteAt hlt]
      refine ⟨BitVec.getLsbD_true_ctz_of_ne_zero h, List.mem_cons_self .., ?_⟩
      intro value hword htest
      have hsplit := toNat_split value
      rcases List.mem_cons.mp hword with hw | hw
      · unfold test at htest
        rw [hw] at htest hsplit
        have := ctz_le htest
        omega
      · have := hlater _ hw
        have : word.val < (maskWord value).val := this
        omega
    · have hskip : lowestIn mask (word :: rest) = lowestIn mask rest := by
        conv_lhs => unfold lowestIn
        rw [if_neg h]
      rw [hskip]
      exact skips h (ih (List.pairwise_cons.mp hsort).2 (mem_rest h hex))

/-- The downward loop finds the greatest byte of the words it runs over. -/
theorem highestIn_spec (mask : Mask) : ∀ words : List (Fin 4), words.Pairwise (· > ·) →
    (∃ word ∈ words, mask word ≠ 0#64) →
      mask.test (highestIn mask words) = true ∧ maskWord (highestIn mask words) ∈ words ∧
        ∀ value, maskWord value ∈ words → mask.test value = true →
          value.toNat ≤ (highestIn mask words).toNat := by
  intro words
  induction words with
  | nil => rintro _ ⟨word, hmem, _⟩; simp at hmem
  | cons word rest ih =>
    intro hsort hex
    have hlater := (List.pairwise_cons.mp hsort).1
    by_cases h : mask word ≠ 0#64
    · have hhigh : highestIn mask (word :: rest) = byteAt word (63 - (mask word).clz.toNat) := by
        unfold highestIn; rw [if_pos h]; rfl
      have hlt : 63 - (mask word).clz.toNat < 64 := by omega
      rw [hhigh, test_byteAt hlt, maskWord_byteAt hlt, toNat_byteAt hlt]
      refine ⟨BitVec.getLsbD_true_clz_of_ne_zero (by norm_num) h, List.mem_cons_self .., ?_⟩
      intro value hword htest
      have hsplit := toNat_split value
      rcases List.mem_cons.mp hword with hw | hw
      · unfold test at htest
        rw [hw] at htest hsplit
        have := le_clz htest
        omega
      · have := hlater _ hw
        have : (maskWord value).val < word.val := this
        omega
    · have hskip : highestIn mask (word :: rest) = highestIn mask rest := by
        conv_lhs => unfold highestIn
        rw [if_neg h]
      rw [hskip]
      exact skips h (ih (List.pairwise_cons.mp hsort).2 (mem_rest h hex))

theorem mem_words (word : Fin 4) : word ∈ [0, 1, 2, 3] ∧ word ∈ ([3, 2, 1, 0] : List (Fin 4)) := by
  revert word; decide

theorem test_lowest {mask : Mask} (h : mask.any = true) : mask.test mask.lowest = true := by
  obtain ⟨word, hw⟩ := (any_iff_word mask).mp h
  exact (lowestIn_spec mask _ (by decide) ⟨word, (mem_words word).1, hw⟩).1

theorem lowest_le {mask : Mask} {value : Byte} (h : mask.test value = true) :
    mask.lowest.toNat ≤ value.toNat :=
  (lowestIn_spec mask _ (by decide) ⟨_, (mem_words _).1, word_ne_zero_of_test h⟩).2.2
    value (mem_words _).1 h

theorem test_highest {mask : Mask} (h : mask.any = true) : mask.test mask.highest = true := by
  obtain ⟨word, hw⟩ := (any_iff_word mask).mp h
  exact (highestIn_spec mask _ (by decide) ⟨word, (mem_words word).2, hw⟩).1

theorem le_highest {mask : Mask} {value : Byte} (h : mask.test value = true) :
    value.toNat ≤ mask.highest.toNat :=
  (highestIn_spec mask _ (by decide) ⟨_, (mem_words _).2, word_ne_zero_of_test h⟩).2.2
    value (mem_words _).2 h

end Mask

end Lob
