import Lob.Metrics.Percentiles

/-!
# The precision of the histogram

A bin stands for its least value, which is below any value of the bin by at most a `2 ^ 10`-th of it.
So a percentile is that close to the recorded value with its rank, whatever was recorded since the last
reset, and the smallest and the largest value are kept as they are.
-/

namespace Lob

open Basis

namespace HdrHistogram

/-- `lower` stands for `value` within the documented precision. -/
structure Within (value lower : BitVec 64) : Prop where
  le : lower ≤ value
  error : value - lower ≤ value >>> 10
  small : value < 2048 → lower = value

/-! ## Bins -/

/-- `valueForIndex` in unbounded arithmetic. -/
def exactValue (index : ℕ) : ℕ :=
  if index < kSubBucketCount then index
  else (kSubBucketHalfCount + (index - kSubBucketCount) % kSubBucketHalfCount) * 2 ^ valueShift index

theorem exponentOf_lt (value : BitVec 64) : exponentOf value < 64 := by
  unfold exponentOf bitWidth
  split_ifs with hzero
  · norm_num
  · exact (Nat.log2_lt fun h => hzero (BitVec.eq_of_toNat_eq h)).mpr value.isLt

theorem indexShift_lt (value : BitVec 64) : indexShift value < 64 := by
  have hexponent := exponentOf_lt value
  unfold indexShift
  split_ifs <;> omega

theorem valueShift_lt {index : ℕ} (h : index < kBinCount) : valueShift index < 64 := by
  change index < 56320 at h
  show 10 + 1 + (index - 2048) / 1024 - 10 < 64
  omega

/-- The word holds the exact value. -/
theorem toNat_valueForIndex_eq {index : ℕ} (h : index < kBinCount) :
    (valueForIndex index).toNat = exactValue index := by
  have hshift : valueShift index = (index - 2 ^ (10 + 1)) / 2 ^ 10 + 1 := by
    show 10 + 1 + (index - 2048) / 1024 - 10 = (index - 2048) / 1024 + 1
    omega
  rw [toNat_valueForIndex h]
  unfold LogLinear.low exactValue
  rw [hshift]
  rfl

theorem indexFor_valueForIndex {index : ℕ} (h : index < kBinCount) :
    indexFor (valueForIndex index) = index := by
  rw [indexFor_eq, toNat_valueForIndex h, LogLinear.bin_low]

theorem valueForIndex_mono {index other : ℕ} (h : index ≤ other) (hother : other < kBinCount) :
    valueForIndex index ≤ valueForIndex other := by
  rw [BitVec.le_def, toNat_valueForIndex (lt_of_le_of_lt h hother), toNat_valueForIndex hother]
  exact LogLinear.low_mono h

/-- **Precision.** The bin of a value stands for it. -/
theorem within_bin (value : BitVec 64) : Within value (valueForIndex (indexFor value)) := by
  have hlow : (valueForIndex (indexFor value)).toNat =
      LogLinear.low 10 (LogLinear.bin 10 value.toNat) := by
    rw [toNat_valueForIndex (indexFor_lt value), indexFor_eq]
  have hle : valueForIndex (indexFor value) ≤ value := by
    rw [BitVec.le_def, hlow]
    exact LogLinear.low_bin_le
  refine ⟨hle, ?_, fun hsmall => ?_⟩
  · rw [BitVec.le_def, BitVec.toNat_sub_of_le hle, hlow, BitVec.toNat_ushiftRight,
      Nat.shiftRight_eq_div_pow]
    exact LogLinear.sub_low_bin_le
  · refine BitVec.eq_of_toNat_eq ?_
    rw [hlow]
    exact LogLinear.low_bin_of_lt hsmall

/-- **The bins** are a monotone lower-bound quantiser of all values. -/
theorem bins_quantise :
    (∀ value : BitVec 64, indexFor value < kBinCount ∧ indexShift value < 64 ∧
      valueShift (indexFor value) < 64 ∧ Within value (valueForIndex (indexFor value))) ∧
    (∀ value other : BitVec 64, value ≤ other → indexFor value ≤ indexFor other) ∧
    ∀ index < kBinCount, valueShift index < 64 ∧ (valueForIndex index).toNat = exactValue index ∧
      indexFor (valueForIndex index) = index := by
  refine ⟨fun value => ?_, fun value other h => indexFor_mono h, fun index h => ?_⟩
  · exact ⟨indexFor_lt value, indexShift_lt value, valueShift_lt (indexFor_lt value),
      within_bin value⟩
  · exact ⟨valueShift_lt h, toNat_valueForIndex_eq h, indexFor_valueForIndex h⟩

/-! ## The extrema -/

variable {values : List (BitVec 64)} {histogram : HdrHistogram}

/-- The extrema that a list of values leaves. -/
structure Extrema (histogram : HdrHistogram) (values : List (BitVec 64)) : Prop where
  none : values = [] → histogram.max = 0
  least : values ≠ [] → IsFirst (· ≤ ·) values histogram.min
  greatest : values ≠ [] → IsFirst (· ≥ ·) values histogram.max

theorem extrema_reset : Extrema reset [] where
  none _ := rfl
  least h := absurd rfl h
  greatest h := absurd rfl h

/-- The test for the first value. -/
theorem count_eq_one (h : Records histogram values) (hlen : values.length + 1 < 2 ^ 64) :
    histogram.count + 1 = 1 ↔ values = [] := by
  rw [← List.length_eq_zero_iff, h.count, ← BitVec.toNat_inj, BitVec.toNat_add, BitVec.toNat_ofNat]
  show (values.length % 2 ^ 64 + 1) % 2 ^ 64 = 1 ↔ _
  omega

/-- **One value.** -/
theorem Extrema.record (h : Extrema histogram values) (hrecords : Records histogram values)
    (hlen : values.length + 1 < 2 ^ 64) (valueNs : BitVec 64) :
    Extrema (histogram.record valueNs) (values ++ [valueNs]) := by
  have hfirst := count_eq_one hrecords hlen
  refine ⟨fun hnil => absurd hnil (by simp), fun _ => ?_, fun _ => ?_⟩
  · show IsFirst _ _ (if histogram.count + 1 = 1 ∨ valueNs < histogram.min then valueNs
      else histogram.min)
    by_cases hnil : values = []
    · rw [if_pos (Or.inl (hfirst.mpr hnil)), hnil]
      exact isFirst_singleton BitVec.le_refl valueNs
    · refine (h.least hnil).concat BitVec.le_refl (fun _ _ _ => BitVec.le_trans) (fun htakes => ?_)
        fun hstays => ?_
      · exact BitVec.le_of_lt (htakes.resolve_left (mt hfirst.mp hnil))
      · exact BitVec.not_lt.mp (not_or.mp hstays).2
  · show IsFirst _ _ (if valueNs > histogram.max then valueNs else histogram.max)
    by_cases hnil : values = []
    · have hvalue : (if valueNs > histogram.max then valueNs else histogram.max) = valueNs := by
        rw [h.none hnil]
        split_ifs with hpos
        · rfl
        · exact (BitVec.le_zero_iff.mp (BitVec.not_lt.mp hpos)).symm
      rw [hvalue, hnil]
      exact isFirst_singleton (r := (· ≥ ·)) BitVec.le_refl valueNs
    · exact (h.greatest hnil).concat BitVec.le_refl (fun _ _ _ hxy hyz => BitVec.le_trans hyz hxy)
        BitVec.le_of_lt BitVec.not_lt.mp

theorem extrema_recordAll (hlen : values.length < 2 ^ 64) : Extrema (recordAll values) values := by
  induction values using List.reverseRecOn with
  | nil => exact extrema_reset
  | append_singleton values value ih =>
    rw [List.length_append] at hlen
    unfold recordAll
    rw [List.foldl_append]
    exact (ih (Nat.lt_of_succ_lt hlen)).record (records_recordAll values) hlen value

/-- The extrema are the values of the first and of the last rank. -/
theorem Extrema.kthRecorded (h : Extrema histogram values) (hne : values ≠ []) :
    histogram.min = kthRecorded values 1 ∧ histogram.max = kthRecorded values values.length := by
  obtain ⟨hfirst, hlast⟩ := isFirst_kthSmallest decide_le_trans decide_le_total hne
  simp only [decide_eq_true_eq] at hfirst hlast
  exact ⟨(h.least hne).eq hfirst fun _ _ => BitVec.le_antisymm,
    (h.greatest hne).eq hlast fun _ _ hxy hyx => BitVec.le_antisymm hyx hxy⟩

/-! ## Percentiles -/

/-- The rank of a percentile of `n` values. -/
def percentileRank (percentile : ℚ) (n : ℕ) : ℕ := max 1 ⌈clamp percentile * n / 100⌉₊

theorem percentileRank_pos (percentile : ℚ) (n : ℕ) : 0 < percentileRank percentile n :=
  Nat.lt_of_lt_of_le Nat.zero_lt_one (Nat.le_max_left _ _)

theorem percentileRank_le (percentile : ℚ) {n : ℕ} (hn : 0 < n) : percentileRank percentile n ≤ n :=
  Nat.max_le.mpr ⟨hn, ceil_clamp_le percentile n⟩

theorem clamp_mono {p q : ℚ} (h : p ≤ q) : clamp p ≤ clamp q := by
  unfold clamp
  split_ifs <;> linarith

theorem percentileRank_mono {p q : ℚ} (h : p ≤ q) (n : ℕ) :
    percentileRank p n ≤ percentileRank q n := by
  have hn : (0 : ℚ) ≤ n := Nat.cast_nonneg n
  refine max_le_max le_rfl (Nat.ceil_mono ?_)
  exact div_le_div_of_nonneg_right (mul_le_mul_of_nonneg_right (clamp_mono h) hn) (by norm_num)

/-- What the histogram of these values answers. -/
structure Precise (histogram : HdrHistogram) (values : List (BitVec 64)) : Prop where
  rank : ∀ percentile, histogram.valueAtPercentile percentile = valueForIndex
    (indexFor (kthRecorded values (percentileRank percentile values.length)))
  within : ∀ percentile, Within (kthRecorded values (percentileRank percentile values.length))
    (histogram.valueAtPercentile percentile)
  stops : ∀ percentile, ∃ index < kBinCount,
    scan histogram.counts (rankAt percentile histogram.count) 0 0 = some index
  mono : ∀ p q, p ≤ q → histogram.valueAtPercentile p ≤ histogram.valueAtPercentile q
  bounded : ∀ percentile, histogram.valueAtPercentile percentile ≤ histogram.maxNs
  count : histogram.count.toNat = values.length
  least : histogram.minNs = kthRecorded values 1
  greatest : histogram.maxNs = kthRecorded values values.length

/-- **Precision of the percentiles.** -/
theorem Records.precise (h : Records histogram values) (hextrema : Extrema histogram values)
    (hne : values ≠ []) (hlen : values.length < 2 ^ 64) : Precise histogram values := by
  have hrank := valueAtPercentile_eq h hne hlen
  have hcount := h.count_ne hne hlen
  obtain ⟨hmin, hmax⟩ := hextrema.kthRecorded hne
  have hlength : 0 < values.length := List.length_pos_iff.mpr hne
  have hmaxNs : histogram.maxNs = kthRecorded values values.length := by
    unfold maxNs
    rw [if_neg hcount, hmax]
  have hordered : ∀ {k k'}, 0 < k → k ≤ k' → k' ≤ values.length →
      kthRecorded values k ≤ kthRecorded values k' := fun hpos hle hk' =>
    of_decide_eq_true (kthSmallest_mono decide_le_trans decide_le_total hpos hle hk')
  refine ⟨hrank, fun percentile => ?_, fun percentile => ?_, fun p q hpq => ?_, fun percentile => ?_,
    h.toNat_count hlen, ?_, hmaxNs⟩
  · rw [hrank]
    exact within_bin _
  · exact ⟨_, indexFor_lt _, scan_rankAt h hne hlen percentile⟩
  · rw [hrank, hrank]
    exact valueForIndex_mono (indexFor_mono (hordered (percentileRank_pos p _)
      (percentileRank_mono hpq _) (percentileRank_le q hlength))) (indexFor_lt _)
  · rw [hrank, hmaxNs]
    exact BitVec.le_trans (within_bin _).le (hordered (percentileRank_pos percentile _)
      (percentileRank_le percentile hlength) le_rfl)
  · unfold minNs
    rw [if_neg hcount, hmin]

/-! ## Calls -/

inductive Call where
  | record (valueNs : BitVec 64)
  | reset

def Call.run (histogram : HdrHistogram) : Call → HdrHistogram
  | .record valueNs => histogram.record valueNs
  | .reset => HdrHistogram.reset

/-- A histogram after these calls. -/
def runCalls (calls : List Call) : HdrHistogram := calls.foldl Call.run reset

/-- The values recorded since the last reset, with one more call. -/
def Call.keep (values : List (BitVec 64)) : Call → List (BitVec 64)
  | .record valueNs => values ++ [valueNs]
  | .reset => []

def sinceReset (calls : List Call) : List (BitVec 64) := calls.foldl Call.keep []

/-- Only what was recorded since the last reset counts. -/
theorem runCalls_eq (calls : List Call) : runCalls calls = recordAll (sinceReset calls) := by
  induction calls using List.reverseRecOn with
  | nil => rfl
  | append_singleton calls call ih =>
    unfold runCalls sinceReset at ih ⊢
    rw [List.foldl_append, List.foldl_append, ih]
    cases call with
    | record valueNs =>
      show record _ _ = recordAll (_ ++ [_])
      unfold recordAll
      rw [List.foldl_append]
      rfl
    | reset => rfl

/-- **Percentiles are within the documented precision** for all data and after any calls. -/
theorem runCalls_precise (calls : List Call) (hne : sinceReset calls ≠ [])
    (hlen : (sinceReset calls).length < 2 ^ 64) : Precise (runCalls calls) (sinceReset calls) := by
  rw [runCalls_eq]
  exact (records_recordAll _).precise (extrema_recordAll hlen) hne hlen

/-- Two values are left by a reset and two records. -/
theorem runCalls_precise_two :
    sinceReset [.record 5, .reset, .record 3000, .record 7] = [3000, 7] ∧
      Precise (runCalls [.record 5, .reset, .record 3000, .record 7]) [3000, 7] :=
  ⟨rfl, runCalls_precise [.record 5, .reset, .record 3000, .record 7] (by decide) (by decide)⟩

end HdrHistogram

end Lob
