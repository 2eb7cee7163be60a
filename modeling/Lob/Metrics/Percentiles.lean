import Lob.Basis.Ranks
import Lob.Metrics.Histogram

/-!
# Percentiles of the recorded values

The bins are in the order of the values, so that the scan stops at the bin of the value with the rank
it looks for.
-/

namespace Lob

open Basis

namespace HdrHistogram

/-- The `k`-th smallest of the recorded values. -/
def kthRecorded (values : List (BitVec 64)) (k : ℕ) : BitVec 64 :=
  kthSmallest (fun value other => decide (value ≤ other)) values k

/-- How many of the values are in the first bins. -/
def recordedBelow (values : List (BitVec 64)) (index : ℕ) : ℕ :=
  values.countP fun value => indexFor value < index

theorem recordedBelow_succ (values : List (BitVec 64)) (index : ℕ) :
    recordedBelow values (index + 1) =
      recordedBelow values index + values.countP fun value => indexFor value = index := by
  unfold recordedBelow
  induction values with
  | nil => rfl
  | cons value values ih =>
    rw [List.countP_cons, List.countP_cons, List.countP_cons, ih]
    by_cases hlt : indexFor value < index
    · simp [hlt, hlt.ne, Nat.lt_succ_of_lt hlt]
      omega
    · by_cases heq : indexFor value = index
      · simp [heq]
        omega
      · simp [hlt, heq, show ¬indexFor value < index + 1 by omega]

theorem recordedBelow_le (values : List (BitVec 64)) (index : ℕ) :
    recordedBelow values index ≤ values.length := List.countP_le_length

theorem decide_le_trans (x y z : BitVec 64) (hxy : decide (x ≤ y) = true)
    (hyz : decide (y ≤ z) = true) : decide (x ≤ z) = true :=
  decide_eq_true (BitVec.le_trans (of_decide_eq_true hxy) (of_decide_eq_true hyz))

theorem decide_le_total (x y : BitVec 64) : (decide (x ≤ y) || decide (y ≤ x)) = true := by
  rw [Bool.or_eq_true, decide_eq_true_iff, decide_eq_true_iff]
  exact BitVec.le_total x y

/-- The bin of the `k`-th smallest value is where the count reaches `k`. -/
theorem le_recordedBelow_iff {values : List (BitVec 64)} {k : ℕ} (hpos : 0 < k)
    (hk : k ≤ values.length) (index : ℕ) :
    k ≤ recordedBelow values (index + 1) ↔ indexFor (kthRecorded values k) ≤ index := by
  unfold recordedBelow kthRecorded
  rw [le_countP_iff decide_le_trans decide_le_total _ hpos hk, decide_eq_true_iff, Nat.lt_succ_iff]
  intro x y hxy hy
  rw [decide_eq_true_iff] at hxy hy ⊢
  exact lt_of_le_of_lt (indexFor_mono hxy) hy

/-! ## The scan -/

variable {histogram : HdrHistogram} {values : List (BitVec 64)}

theorem observed_add (h : Records histogram values) {index : ℕ} (hindex : index < kBinCount) :
    BitVec.ofNat 64 (recordedBelow values index) + histogram.counts[index] =
      BitVec.ofNat 64 (recordedBelow values (index + 1)) := by
  rw [h.counts index hindex, ← BitVec.ofNat_add, recordedBelow_succ]

theorem le_observed_iff (hlen : values.length < 2 ^ 64) (rank : BitVec 64) (index : ℕ) :
    rank ≤ BitVec.ofNat 64 (recordedBelow values index) ↔
      rank.toNat ≤ recordedBelow values index := by
  rw [BitVec.le_def, BitVec.toNat_ofNat,
    Nat.mod_eq_of_lt (lt_of_le_of_lt (recordedBelow_le values index) hlen)]

/-- **The scan** stops at the bin of the value with the rank. -/
theorem scan_eq (h : Records histogram values) (hlen : values.length < 2 ^ 64) {rank : BitVec 64}
    (hpos : 0 < rank.toNat) (hrank : rank.toNat ≤ values.length) {index : ℕ}
    (hindex : index ≤ indexFor (kthRecorded values rank.toNat)) :
    scan histogram.counts rank (BitVec.ofNat 64 (recordedBelow values index)) index =
      some (indexFor (kthRecorded values rank.toNat)) := by
  obtain ⟨left, hleft⟩ := Nat.exists_eq_add_of_le hindex
  have hbin := indexFor_lt (kthRecorded values rank.toNat)
  induction left generalizing index with
  | zero =>
    have hstop := (le_recordedBelow_iff hpos hrank index).mpr (by omega)
    unfold scan
    rw [dif_pos (by omega)]
    simp only [observed_add h (by omega : index < kBinCount)]
    rw [if_pos ((le_observed_iff hlen rank _).mpr hstop), hleft, Nat.add_zero]
  | succ left ih =>
    have hgo : ¬rank.toNat ≤ recordedBelow values (index + 1) := by
      rw [le_recordedBelow_iff hpos hrank index]
      omega
    unfold scan
    rw [dif_pos (by omega)]
    simp only [observed_add h (by omega : index < kBinCount)]
    rw [if_neg (fun hle => hgo ((le_observed_iff hlen rank _).mp hle))]
    exact ih (by omega) (by omega)

/-! ## The rank -/

theorem clamp_le (percentile : ℚ) : clamp percentile ≤ 100 := by
  unfold clamp
  split_ifs with hneg hbig
  · norm_num
  · exact le_refl 100
  · exact not_lt.mp hbig

theorem clamp_of_mem {percentile : ℚ} (hnonneg : 0 ≤ percentile) (hle : percentile ≤ 100) :
    clamp percentile = percentile := by
  unfold clamp
  rw [if_neg (not_lt.mpr hnonneg), if_neg (not_lt.mpr hle)]

theorem ceil_clamp_le (percentile : ℚ) (n : ℕ) : ⌈clamp percentile * n / 100⌉₊ ≤ n := by
  rw [Nat.ceil_le, div_le_iff₀ (by norm_num), mul_comm]
  exact mul_le_mul_of_nonneg_left (clamp_le percentile) (Nat.cast_nonneg n)

/-- Truncating and adding one where something was cut off rounds up. -/
theorem toNat_roundUp {scaled : ℚ} (hceil : ⌈scaled⌉₊ < 2 ^ 64) :
    (if ((BitVec.ofNat 64 ⌊scaled⌋₊).toNat : ℚ) < scaled
      then BitVec.ofNat 64 ⌊scaled⌋₊ + 1 else BitVec.ofNat 64 ⌊scaled⌋₊).toNat = ⌈scaled⌉₊ := by
  have hle := Nat.floor_le_ceil scaled
  have hfloor : (BitVec.ofNat 64 ⌊scaled⌋₊).toNat = ⌊scaled⌋₊ := by
    rw [BitVec.toNat_ofNat, Nat.mod_eq_of_lt (lt_of_le_of_lt hle hceil)]
  rw [hfloor]
  by_cases hup : ((⌊scaled⌋₊ : ℕ) : ℚ) < scaled
  · have hlt : ⌊scaled⌋₊ < ⌈scaled⌉₊ := Nat.lt_ceil.mpr hup
    have hnext := Nat.ceil_le_floor_add_one scaled
    rw [if_pos hup, BitVec.toNat_add, hfloor]
    show (⌊scaled⌋₊ + 1) % 2 ^ 64 = _
    rw [Nat.mod_eq_of_lt (by omega)]
    omega
  · rw [if_neg hup, hfloor]
    exact le_antisymm hle (Nat.ceil_le.mpr (not_lt.mp hup))

theorem toNat_atLeastOne (rank : BitVec 64) :
    (if rank < 1 then 1 else rank).toNat = max 1 rank.toNat := by
  by_cases hlow : rank < 1
  · rw [if_pos hlow]
    exact (Nat.max_eq_left (Nat.le_of_lt hlow)).symm
  · rw [if_neg hlow]
    exact (Nat.max_eq_right (Nat.le_of_not_lt hlow)).symm

/-- **The rank** is the least one that the percentile reaches, and at least one. -/
theorem toNat_rankAt (percentile : ℚ) (count : BitVec 64) :
    (rankAt percentile count).toNat = max 1 ⌈clamp percentile * count.toNat / 100⌉₊ := by
  have hceil := lt_of_le_of_lt (ceil_clamp_le percentile count.toNat) count.isLt
  exact (toNat_atLeastOne _).trans (congrArg (max 1) (toNat_roundUp hceil))

theorem Records.toNat_count (h : Records histogram values) (hlen : values.length < 2 ^ 64) :
    histogram.count.toNat = values.length := by
  rw [h.count, BitVec.toNat_ofNat, Nat.mod_eq_of_lt hlen]

/-- The scan for a percentile stops, whatever was recorded. -/
theorem scan_rankAt (h : Records histogram values) (hne : values ≠ [])
    (hlen : values.length < 2 ^ 64) (percentile : ℚ) :
    scan histogram.counts (rankAt percentile histogram.count) 0 0 =
      some (indexFor (kthRecorded values (max 1 ⌈clamp percentile * values.length / 100⌉₊))) := by
  have hlength : 0 < values.length := List.length_pos_iff.mpr hne
  have hrank := toNat_rankAt percentile histogram.count
  rw [h.toNat_count hlen] at hrank
  have hpos : 0 < (rankAt percentile histogram.count).toNat := by
    rw [hrank]
    exact lt_of_lt_of_le Nat.zero_lt_one (Nat.le_max_left _ _)
  have hle : (rankAt percentile histogram.count).toNat ≤ values.length := by
    rw [hrank]
    exact Nat.max_le.mpr ⟨hlength, ceil_clamp_le percentile values.length⟩
  have hempty : recordedBelow values 0 = 0 := List.countP_eq_zero.mpr fun value _ => by simp
  have hscan := scan_eq h hlen hpos hle (Nat.zero_le _)
  rw [hempty, hrank] at hscan
  exact hscan

/-- The count of a histogram that recorded something is not zero. -/
theorem Records.count_ne (h : Records histogram values) (hne : values ≠ [])
    (hlen : values.length < 2 ^ 64) : histogram.count ≠ 0 := by
  rintro hzero
  have hcount := h.toNat_count hlen
  rw [hzero] at hcount
  exact hne (List.length_eq_zero_iff.mp hcount.symm)

/-- **Percentiles.** A percentile is the bin of the value with the rank, whatever was recorded. -/
theorem valueAtPercentile_eq (h : Records histogram values) (hne : values ≠ [])
    (hlen : values.length < 2 ^ 64) (percentile : ℚ) :
    histogram.valueAtPercentile percentile =
      valueForIndex (indexFor (kthRecorded values
        (max 1 ⌈clamp percentile * values.length / 100⌉₊))) := by
  unfold valueAtPercentile
  rw [if_neg (h.count_ne hne hlen), scan_rankAt h hne hlen]

/-! ## The percentiles of the summary -/

/-- The literal `99.9` denotes a number above it. -/
theorem binary64_tenths : binary64 (999 / 10) = 7029837543348634 / 2 ^ 46 := by
  have hfloor : ⌊(999 / 10 : ℚ)⌋₊ = 99 := by
    rw [Nat.floor_eq_iff (by norm_num)]
    norm_num
  have hlog : Int.log 2 (999 / 10 : ℚ) = 6 := by
    rw [Int.log_of_one_le_right 2 (by norm_num), hfloor]
    rfl
  have hwhole : ⌊(999 / 10 * 2 ^ 46 : ℚ)⌋ = 7029837543348633 := by
    rw [Int.floor_eq_iff]
    norm_num
  unfold binary64 roundHalfEven
  rw [hlog, show (52 - 6 : ℤ) = (46 : ℕ) by norm_num, zpow_natCast, hwhole]
  norm_num

/-- The rank of the literal `99.9` among `n` values. -/
def literalRank (n : ℕ) : ℕ := n - n * (2 ^ 44 - 1) / (1000 * 2 ^ 44)

theorem ceil_literal (n : ℕ) :
    ⌈clamp (binary64 (999 / 10)) * n / 100⌉₊ = literalRank n := by
  have hclamp : clamp (binary64 (999 / 10)) = binary64 (999 / 10) := by
    rw [binary64_tenths]
    exact clamp_of_mem (by norm_num) (by norm_num)
  have hshare : binary64 (999 / 10) * n / 100 =
      (((1000 * 2 ^ 44 : ℕ) : ℚ) - ((2 ^ 44 - 1 : ℕ) : ℚ)) / ((1000 * 2 ^ 44 : ℕ) : ℚ) * n := by
    rw [binary64_tenths]
    norm_num
    ring
  rw [hclamp, hshare]
  exact ceil_sub_mul_div n (by norm_num) (by norm_num)

theorem ceil_tenths (n : ℕ) : ⌈(999 : ℚ) * n / 1000⌉₊ = n - n / 1000 := by
  have hshare : (999 : ℚ) * n / 1000 = (((1000 : ℕ) : ℚ) - ((1 : ℕ) : ℚ)) / ((1000 : ℕ) : ℚ) * n := by
    norm_num
    ring
  rw [hshare, ceil_sub_mul_div n (by norm_num) (by norm_num), Nat.mul_one]

/-- The rank is the nearest one but for multiples of `1000` and lengths above `2 ^ 44`. -/
theorem literalRank_eq_of_le {n : ℕ} (h : n ≤ n % 1000 * 2 ^ 44) :
    literalRank n = n - n / 1000 := by
  have hshare : n * (2 ^ 44 - 1) / (1000 * 2 ^ 44) = n / 1000 := by
    refine Nat.div_eq_of_lt_le ?_ ?_ <;> omega
  unfold literalRank
  rw [hshare]

/-- The summary has its percentiles at the nearest ranks. -/
def NearestRank (values : List (BitVec 64)) : Prop :=
  (recordAll values).summary.p50Ns =
      valueForIndex (indexFor (kthRecorded values ⌈(50 : ℚ) * values.length / 100⌉₊)) ∧
    (recordAll values).summary.p99Ns =
      valueForIndex (indexFor (kthRecorded values ⌈(99 : ℚ) * values.length / 100⌉₊)) ∧
    (recordAll values).summary.p999Ns =
      valueForIndex (indexFor (kthRecorded values ⌈(999 : ℚ) * values.length / 1000⌉₊))

theorem max_one_ceil {percentile : ℚ} (hpos : 0 < percentile) (hne : values ≠ []) :
    max 1 ⌈percentile * values.length / 100⌉₊ = ⌈percentile * values.length / 100⌉₊ := by
  have hlength : (0 : ℚ) < values.length := Nat.cast_pos.mpr (List.length_pos_iff.mpr hne)
  exact Nat.max_eq_right (Nat.ceil_pos.mpr (by positivity))

/-- Whole percentiles are at their nearest ranks. -/
theorem valueAtPercentile_whole (hne : values ≠ []) (hlen : values.length < 2 ^ 64) {n : ℕ}
    (hpos : 0 < n) (hle : n ≤ 100) :
    (recordAll values).valueAtPercentile (binary64 n) =
      valueForIndex (indexFor (kthRecorded values ⌈(n : ℚ) * values.length / 100⌉₊)) := by
  have hposq : (0 : ℚ) < n := Nat.cast_pos.mpr hpos
  rw [valueAtPercentile_eq (records_recordAll values) hne hlen, binary64_natCast (by omega),
    clamp_of_mem hposq.le (by exact_mod_cast hle), max_one_ceil hposq hne]

/-- The percentile `99.9` is at the rank of its literal. -/
theorem summary_p999Ns (hne : values ≠ []) (hlen : values.length < 2 ^ 64) :
    (recordAll values).summary.p999Ns =
      valueForIndex (indexFor (kthRecorded values (literalRank values.length))) := by
  have hpos : 0 < literalRank values.length := by
    have hlength := List.length_pos_iff.mpr hne
    have hshare : values.length * (2 ^ 44 - 1) / (1000 * 2 ^ 44) < values.length := by omega
    unfold literalRank
    omega
  show (recordAll values).valueAtPercentile (binary64 (999 / 10)) = _
  rw [valueAtPercentile_eq (records_recordAll values) hne hlen, ceil_literal,
    Nat.max_eq_right (show 1 ≤ literalRank values.length from hpos)]

theorem nearestRank_iff_bins (hne : values ≠ []) (hlen : values.length < 2 ^ 64) :
    NearestRank values ↔
      indexFor (kthRecorded values (literalRank values.length)) =
        indexFor (kthRecorded values (values.length - values.length / 1000)) := by
  have hhalf := valueAtPercentile_whole hne hlen (n := 50) (by norm_num) (by norm_num)
  have hmost := valueAtPercentile_whole hne hlen (n := 99) (by norm_num) (by norm_num)
  unfold NearestRank
  rw [ceil_tenths, summary_p999Ns hne hlen, valueForIndex_inj (indexFor_lt _) (indexFor_lt _)]
  exact ⟨fun h => h.2.2, fun h => ⟨hhalf, hmost, h⟩⟩

/-- **The summary** has its percentiles at the nearest ranks exactly if the value of the rank that the
literal `99.9` stands for is in the bin of the nearest one, as it is at lengths up to `2 ^ 44` that are
no multiples of `1000`. -/
theorem nearestRank_iff (hne : values ≠ []) (hlen : values.length < 2 ^ 64) :
    NearestRank values ↔
      values.length ≤ values.length % 1000 * 2 ^ 44 ∨
        indexFor (kthRecorded values (literalRank values.length)) =
          indexFor (kthRecorded values (values.length - values.length / 1000)) := by
  rw [nearestRank_iff_bins hne hlen]
  refine ⟨Or.inr, fun h => ?_⟩
  rcases h with hlength | hbin
  · rw [literalRank_eq_of_le hlength]
  · exact hbin

theorem nearestRank_two : NearestRank [3, 7] :=
  (nearestRank_iff (by simp) (by simp)).mpr (Or.inl (by decide))

/-- Of the values from `1` on, each is the value of its rank. -/
theorem kthRecorded_ascending {n k : ℕ} (hn : n < 2 ^ 64) (hpos : 0 < k) (hk : k ≤ n) :
    kthRecorded ((List.range n).map fun i => BitVec.ofNat 64 (i + 1)) k = BitVec.ofNat 64 k := by
  have hsorted : ((List.range n).map fun i => BitVec.ofNat 64 (i + 1)).Pairwise (· ≤ ·) := by
    rw [List.pairwise_map]
    refine List.pairwise_lt_range.imp_of_mem fun {i j} hi hj hlt => ?_
    rw [List.mem_range] at hi hj
    rw [BitVec.le_def, BitVec.toNat_ofNat, BitVec.toNat_ofNat]
    omega
  unfold kthRecorded kthSmallest
  rw [List.mergeSort_of_pairwise (hsorted.imp fun hle => decide_eq_true hle),
    List.getD_eq_getElem?_getD, List.getElem?_map, List.getElem?_range (by omega)]
  show BitVec.ofNat 64 (k - 1 + 1) = _
  rw [Nat.sub_add_cancel hpos]

/-- Of the values from `1` to `1000` the summary reports the last instead of the one before it. -/
theorem thousand_not_nearestRank :
    ¬NearestRank ((List.range 1000).map fun i => BitVec.ofNat 64 (i + 1)) := by
  rw [nearestRank_iff_bins (by simp) (by simp), List.length_map, List.length_range,
    show literalRank 1000 = 1000 by decide, kthRecorded_ascending (by norm_num) (by norm_num) le_rfl,
    kthRecorded_ascending (by norm_num) (by norm_num) (by norm_num)]
  decide

end HdrHistogram

end Lob
