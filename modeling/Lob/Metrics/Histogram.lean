import Lob.Basis.Binary64
import Lob.Basis.LogLinear
import Mathlib.Data.BitVec
import Mathlib.Data.Rat.Floor

/-!
# The latency histogram

Values are counted in bins: below `2 ^ 11` a bin is a value, above it a bin has the ten bits after the
highest one. The bins are log-linear with ten kept bits, a recorded value adds one to its bin and to
the total, and a percentile is looked up by counting along the bins.
-/

namespace Lob

open Basis

structure LatencySummary where
  count : BitVec 64
  minNs : BitVec 64
  maxNs : BitVec 64
  p50Ns : BitVec 64
  p99Ns : BitVec 64
  p999Ns : BitVec 64

namespace HdrHistogram

def kSignificantBits : ℕ := 10

def kSubBucketCount : ℕ := 2 ^ (kSignificantBits + 1)

def kSubBucketHalfCount : ℕ := kSubBucketCount / 2

def kBucketCount : ℕ := 64

def kBinCount : ℕ :=
  kSubBucketCount + (kBucketCount - (kSignificantBits + 1)) * kSubBucketHalfCount

/-- `std::bit_width`. -/
def bitWidth (value : BitVec 64) : ℕ := if value = 0 then 0 else value.toNat.log2 + 1

/-- `exponent` in `indexFor`. -/
def exponentOf (valueNs : BitVec 64) : ℕ := if valueNs = 0 then 0 else bitWidth valueNs - 1

/-- `shift` in `indexFor`. -/
def indexShift (valueNs : BitVec 64) : ℕ :=
  if exponentOf valueNs > kSignificantBits then exponentOf valueNs - kSignificantBits else 0

def indexFor (valueNs : BitVec 64) : ℕ :=
  let exponent := exponentOf valueNs
  let subBucket := (valueNs >>> indexShift valueNs).toNat
  if exponent ≤ kSignificantBits then subBucket
  else
    let compactBucket := exponent - (kSignificantBits + 1)
    kSubBucketCount + compactBucket * kSubBucketHalfCount + (subBucket - kSubBucketHalfCount)

/-- `shift` in `valueForIndex`, of an index past the sub-buckets. -/
def valueShift (index : ℕ) : ℕ :=
  let compactIndex := index - kSubBucketCount
  let exponent := kSignificantBits + 1 + compactIndex / kSubBucketHalfCount
  exponent - kSignificantBits

def valueForIndex (index : ℕ) : BitVec 64 :=
  if index < kSubBucketCount then BitVec.ofNat 64 index
  else
    let compactIndex := index - kSubBucketCount
    let subBucket := BitVec.ofNat 64 (kSubBucketHalfCount + compactIndex % kSubBucketHalfCount)
    subBucket <<< valueShift index

/-! ## Indices -/

theorem indexFor_eq (value : BitVec 64) : indexFor value = LogLinear.bin 10 value.toNat := by
  have hexponent : exponentOf value = value.toNat.log2 := by
    unfold exponentOf bitWidth
    split_ifs with hzero
    · rw [hzero]
      rfl
    · rfl
  have hshift : indexShift value = LogLinear.spare 10 value.toNat := by
    unfold indexShift kSignificantBits LogLinear.spare
    rw [hexponent]
    split_ifs <;> omega
  unfold indexFor LogLinear.bin
  simp only [hexponent, hshift, BitVec.toNat_ushiftRight, Nat.shiftRight_eq_div_pow]
  by_cases hsmall : value.toNat.log2 ≤ kSignificantBits
  · have hspare : LogLinear.spare 10 value.toNat = 0 := Nat.sub_eq_zero_of_le hsmall
    rw [if_pos hsmall, hspare]
    omega
  · rw [if_neg hsmall]
    change ¬value.toNat.log2 ≤ 10 at hsmall
    have hspare : value.toNat.log2 = LogLinear.spare 10 value.toNat + 10 := by
      unfold LogLinear.spare
      omega
    have hkept : 2 ^ 10 ≤ value.toNat / 2 ^ LogLinear.spare 10 value.toNat :=
      LogLinear.le_kept (by omega)
    show 2048 + (value.toNat.log2 - 11) * 1024 +
      (value.toNat / 2 ^ LogLinear.spare 10 value.toNat - 1024) = _
    omega

theorem indexFor_lt (value : BitVec 64) : indexFor value < kBinCount := by
  rw [indexFor_eq]
  exact LogLinear.bin_lt_of_lt (by norm_num) value.isLt

theorem indexFor_mono {value other : BitVec 64} (h : value ≤ other) :
    indexFor value ≤ indexFor other := by
  rw [indexFor_eq, indexFor_eq]
  exact LogLinear.bin_mono h

/-- The shifted value of a bin does not leave the word. -/
theorem toNat_valueForIndex {index : ℕ} (h : index < kBinCount) :
    (valueForIndex index).toNat = LogLinear.low 10 index := by
  change index < 56320 at h
  unfold valueForIndex LogLinear.low
  by_cases hsmall : index < 2048
  · rw [if_pos (show index < kSubBucketCount from hsmall),
      if_pos (show index < 2 ^ (10 + 1) from hsmall), BitVec.toNat_ofNat]
    omega
  · rw [if_neg (show ¬index < kSubBucketCount from hsmall),
      if_neg (show ¬index < 2 ^ (10 + 1) from hsmall)]
    show (BitVec.ofNat 64 (1024 + (index - 2048) % 1024) <<<
      (11 + (index - 2048) / 1024 - 10)).toNat =
        (1024 + (index - 2048) % 1024) * 2 ^ ((index - 2048) / 1024 + 1)
    have hshift : 11 + (index - 2048) / 1024 - 10 = (index - 2048) / 1024 + 1 := by omega
    have hbucket : (index - 2048) / 1024 + 1 ≤ 53 := by omega
    have hbound : (1024 + (index - 2048) % 1024) * 2 ^ ((index - 2048) / 1024 + 1) < 2 ^ 64 := by
      calc (1024 + (index - 2048) % 1024) * 2 ^ ((index - 2048) / 1024 + 1)
          ≤ 2047 * 2 ^ 53 := Nat.mul_le_mul (by omega) (Nat.pow_le_pow_right (by norm_num) hbucket)
        _ < 2 ^ 64 := by norm_num
    rw [hshift, BitVec.toNat_shiftLeft, BitVec.toNat_ofNat, Nat.shiftLeft_eq,
      Nat.mod_eq_of_lt (a := 1024 + (index - 2048) % 1024) (by omega), Nat.mod_eq_of_lt hbound]

theorem valueForIndex_inj {index other : ℕ} (h : index < kBinCount) (hother : other < kBinCount) :
    valueForIndex index = valueForIndex other ↔ index = other := by
  refine ⟨fun heq => ?_, fun heq => heq ▸ rfl⟩
  refine LogLinear.low_injective (b := 10) ?_
  rw [← toNat_valueForIndex h, heq, toNat_valueForIndex hother]

end HdrHistogram

open HdrHistogram in
structure HdrHistogram where
  counts : Vector (BitVec 64) kBinCount
  count : BitVec 64
  protected min : BitVec 64
  protected max : BitVec 64

namespace HdrHistogram

/-- The state that `reset` establishes, also at construction. -/
def reset : HdrHistogram := ⟨Vector.replicate kBinCount 0, 0, 0, 0⟩

def record (histogram : HdrHistogram) (valueNs : BitVec 64) : HdrHistogram :=
  let index := indexFor valueNs
  have hindex : index < kBinCount := indexFor_lt valueNs
  let count := histogram.count + 1
  { counts := histogram.counts.set index (histogram.counts[index] + 1)
    count
    min := if count = 1 ∨ valueNs < histogram.min then valueNs else histogram.min
    max := if valueNs > histogram.max then valueNs else histogram.max }

/-- The member function `min`. -/
def minNs (histogram : HdrHistogram) : BitVec 64 :=
  if histogram.count = 0 then 0 else histogram.min

/-- The member function `max`. -/
def maxNs (histogram : HdrHistogram) : BitVec 64 :=
  if histogram.count = 0 then 0 else histogram.max

/-- The loop of `value_at_percentile` from a bin on. `none` when it runs off the array. -/
def scan (counts : Vector (BitVec 64) kBinCount) (rank observed : BitVec 64) (index : ℕ) :
    Option ℕ :=
  if h : index < kBinCount then
    let observed := observed + counts[index]
    if observed ≥ rank then some index else scan counts rank observed (index + 1)
  else none
termination_by kBinCount - index

/-- `std::clamp(percentile, 0.0, 100.0)`. -/
def clamp (percentile : ℚ) : ℚ :=
  if percentile < 0 then 0 else if 100 < percentile then 100 else percentile

/-- The rank that `value_at_percentile` looks for, in exact arithmetic. -/
def rankAt (percentile : ℚ) (count : BitVec 64) : BitVec 64 :=
  let scaled := clamp percentile * count.toNat / 100
  let rank := BitVec.ofNat 64 ⌊scaled⌋₊
  let rank := if (rank.toNat : ℚ) < scaled then rank + 1 else rank
  if rank < 1 then 1 else rank

def valueAtPercentile (histogram : HdrHistogram) (percentile : ℚ) : BitVec 64 :=
  if histogram.count = 0 then 0
  else
    match scan histogram.counts (rankAt percentile histogram.count) 0 0 with
    | some index => valueForIndex index
    | none => histogram.max

/-- The arguments are the numbers of the literals `50.0`, `99.0` and `99.9`. -/
def summary (histogram : HdrHistogram) : LatencySummary where
  count := histogram.count
  minNs := histogram.minNs
  maxNs := histogram.maxNs
  p50Ns := histogram.valueAtPercentile (binary64 50)
  p99Ns := histogram.valueAtPercentile (binary64 99)
  p999Ns := histogram.valueAtPercentile (binary64 (999 / 10))

/-! ## Recorded values -/

/-- The counts that a list of values leaves. -/
structure Records (histogram : HdrHistogram) (values : List (BitVec 64)) : Prop where
  counts : ∀ index, (h : index < kBinCount) →
    histogram.counts[index] = BitVec.ofNat 64 (values.countP fun value => indexFor value = index)
  count : histogram.count = BitVec.ofNat 64 values.length

theorem records_reset : Records reset [] where
  counts _ h := Vector.getElem_replicate h
  count := rfl

/-- **One value.** -/
theorem Records.record {histogram : HdrHistogram} {values : List (BitVec 64)}
    (h : Records histogram values) (valueNs : BitVec 64) :
    Records (histogram.record valueNs) (values ++ [valueNs]) where
  counts index hindex := by
    rw [List.countP_append, List.countP_singleton]
    unfold HdrHistogram.record
    rw [Vector.getElem_set]
    by_cases heq : indexFor valueNs = index
    · subst heq
      rw [if_pos rfl, if_pos (decide_eq_true rfl), h.counts, BitVec.ofNat_add]
      rfl
    · rw [if_neg heq, if_neg (by simpa using heq), Nat.add_zero, h.counts]
  count := by
    rw [List.length_append, BitVec.ofNat_add, ← h.count]
    rfl

/-- A histogram that has recorded the values from its reset on. -/
def recordAll (values : List (BitVec 64)) : HdrHistogram := values.foldl record reset

/-- **Any values.** -/
theorem records_recordAll (values : List (BitVec 64)) : Records (recordAll values) values := by
  induction values using List.reverseRecOn with
  | nil => exact records_reset
  | append_singleton values value ih =>
    unfold recordAll
    rw [List.foldl_append]
    exact ih.record value

end HdrHistogram

end Lob
