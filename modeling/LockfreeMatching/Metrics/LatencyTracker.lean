import LockfreeMatching.Lib.Histogram
import Mathlib.Data.Rat.Floor

/-!
# Latency histogram

`LatencyTracker` follows the source in its own 64-bit arithmetic: the bucket index is computed
from the leading bit, the upper bound of a bucket by a shift that wraps around to zero for the
very last bucket, and all counters are unchecked. The percentile is taken of a rational number,
so that the rank is exact. The bucket geometry is that of `Lib.Histogram` with 64 sub-buckets.

## Main results

* `bucketIndex_toNat`, `bucketUpper_toNat`: the bit tricks compute the log-linear buckets.
* `bucket_spec`: buckets tile the 64-bit range with bounded relative error.
-/
namespace LockfreeMatching

open Lib

/-- `std::bit_width`: one more than the position of the leading bit, zero for zero. -/
def bitWidth (v : UInt64) : UInt32 := if v = 0 then 0 else UInt32.ofNat (v.toNat.log2 + 1)

namespace LatencyTracker

def subBits : UInt32 := 6

/-- Sub-buckets per octave. -/
def subCount : UInt64 := 1 <<< subBits.toUInt64

/-- Values from `2 ^ maxBits` on share the last bin. -/
def maxBits : UInt32 := 42

def numBins : Nat := (subCount + (maxBits - subBits).toUInt64 * subCount).toNat

end LatencyTracker

structure LatencyTracker where
  bins : Fin LatencyTracker.numBins → UInt64 := fun _ => 0
  count : UInt64 := 0
  sum : UInt64 := 0
  maxValue : UInt64 := 0
  minValue : UInt64 := 18446744073709551615

namespace LatencyTracker

theorem subCount_eq : subCount = 64 := by decide

theorem numBins_eq : numBins = 2368 := by decide

def bucketIndex (v : UInt64) : UInt64 :=
  if v < subCount then v
  else
    let msb := bitWidth v - 1
    let shift := msb - subBits
    let sub := (v >>> shift.toUInt64) - subCount
    subCount * (shift + 1).toUInt64 + sub

def bucketUpper (idx : UInt64) : UInt64 :=
  if idx < subCount then idx
  else
    let oct := idx / subCount - 1
    let sub := idx % subCount
    ((subCount + sub + 1) <<< oct) - 1

/-- The bin a value is counted in: the last one takes all that is too large. -/
def bin (ns : UInt64) : Fin numBins :=
  if h : (bucketIndex ns).toNat < numBins then ⟨(bucketIndex ns).toNat, h⟩
  else ⟨numBins - 1, by decide⟩

def record (t : LatencyTracker) (ns : UInt64) : LatencyTracker where
  bins := Function.update t.bins (bin ns) (t.bins (bin ns) + 1)
  count := t.count + 1
  sum := t.sum + ns
  maxValue := if t.maxValue < ns then ns else t.maxValue
  minValue := if ns < t.minValue then ns else t.minValue

def reset (_ : LatencyTracker) : LatencyTracker where
  bins := fun _ => 0
  count := 0
  sum := 0
  maxValue := 0
  minValue := 18446744073709551615

/-- The scan over the bins from `i` on. -/
def scan (t : LatencyTracker) (target : UInt64) (i : Nat) (cumulative : UInt64) : UInt64 :=
  if h : i < numBins then
    let cumulative := cumulative + t.bins ⟨i, h⟩
    if target ≤ cumulative then bucketUpper (UInt64.ofNat i) else scan t target (i + 1) cumulative
  else t.maxValue
termination_by numBins - i

/-- Upper bound of the bucket that holds the sample at the given percentile. -/
def percentile (t : LatencyTracker) (pct : ℚ) : UInt64 :=
  if t.count = 0 then 0
  else scan t (UInt64.ofNat ⌊pct / 100 * t.count.toNat + 1 / 2⌋₊) 0 0

def p50 (t : LatencyTracker) : UInt64 := t.percentile 50
def p95 (t : LatencyTracker) : UInt64 := t.percentile 95
def p99 (t : LatencyTracker) : UInt64 := t.percentile 99
def p999 (t : LatencyTracker) : UInt64 := t.percentile (999 / 10)

protected def max (t : LatencyTracker) : UInt64 := t.maxValue
protected def min (t : LatencyTracker) : UInt64 := if t.count ≠ 0 then t.minValue else 0

def mean (t : LatencyTracker) : UInt64 := if t.count ≠ 0 then t.sum / t.count else 0

/-! ## Bucket geometry -/

theorem bitWidth_toNat {v : UInt64} (hv : 64 ≤ v.toNat) :
    6 ≤ v.toNat.log2 ∧ v.toNat.log2 < 64 ∧ (bitWidth v).toNat = v.toNat.log2 + 1 := by
  have hne : v.toNat ≠ 0 := by omega
  have hlt : v.toNat.log2 < 64 := (Nat.log2_lt hne).2 v.toNat_lt
  refine ⟨(Nat.le_log2 hne).2 (by simpa using hv), hlt, ?_⟩
  have hz : v ≠ 0 := by
    rintro rfl
    exact hne rfl
  rw [bitWidth, if_neg hz, UInt32.toNat_ofNat']
  omega

/-- The index of the source is that of the log-linear histogram. -/
theorem bucketIndex_toNat (v : UInt64) : (bucketIndex v).toNat = Histogram.index 6 v.toNat := by
  unfold bucketIndex Histogram.index
  rw [subCount_eq]
  by_cases hv : v.toNat < 64
  · rw [if_pos (UInt64.lt_iff_toNat_lt.2 hv), if_pos (by simpa using hv)]
  · rw [if_neg (by rw [UInt64.lt_iff_toNat_lt]; exact hv), if_neg (by simpa using hv)]
    obtain ⟨hlog, hlog', hwidth⟩ := bitWidth_toNat (not_lt.1 hv)
    have hne : v.toNat ≠ 0 := by omega
    have hshift : (bitWidth v - 1 - subBits).toNat = v.toNat.log2 - 6 := by
      have hone : (1 : UInt32) ≤ bitWidth v := by
        rw [UInt32.le_iff_toNat_le, hwidth]
        exact Nat.le_add_left 1 _
      have hsix : subBits ≤ bitWidth v - 1 := by
        rw [UInt32.le_iff_toNat_le, UInt32.toNat_sub_of_le _ _ hone, hwidth]
        exact hlog
      rw [UInt32.toNat_sub_of_le _ _ hsix, UInt32.toNat_sub_of_le _ _ hone, hwidth]
      rfl
    -- seven leading bits, the first of them set
    have hle : 64 ≤ v.toNat / 2 ^ (v.toNat.log2 - 6) := by
      rw [Nat.le_div_iff_mul_le (Nat.two_pow_pos _)]
      calc 64 * 2 ^ (v.toNat.log2 - 6) = 2 ^ (6 + (v.toNat.log2 - 6)) := by rw [Nat.pow_add]
        _ = 2 ^ v.toNat.log2 := by rw [Nat.add_sub_cancel' hlog]
        _ ≤ v.toNat := Nat.log2_self_le hne
    have hlt : v.toNat / 2 ^ (v.toNat.log2 - 6) < 128 := by
      rw [Nat.div_lt_iff_lt_mul (Nat.two_pow_pos _)]
      calc v.toNat < 2 ^ (v.toNat.log2 + 1) := Nat.lt_log2_self
        _ = 2 ^ (7 + (v.toNat.log2 - 6)) := by congr 1; omega
        _ = 128 * 2 ^ (v.toNat.log2 - 6) := by rw [Nat.pow_add]
    have hshr : (v >>> (bitWidth v - 1 - subBits).toUInt64).toNat =
        v.toNat / 2 ^ (v.toNat.log2 - 6) := by
      rw [UInt64.toNat_shiftRight, UInt32.toNat_toUInt64, hshift, Nat.shiftRight_eq_div_pow,
        Nat.mod_eq_of_lt (by omega)]
    have hsub : (v >>> (bitWidth v - 1 - subBits).toUInt64 - 64).toNat =
        v.toNat / 2 ^ (v.toNat.log2 - 6) - 64 := by
      rw [UInt64.toNat_sub_of_le _ _ (by rw [UInt64.le_iff_toNat_le, hshr]; exact hle), hshr]
      rfl
    have hoct : (bitWidth v - 1 - subBits + 1).toUInt64.toNat = v.toNat.log2 - 6 + 1 := by
      rw [UInt32.toNat_toUInt64, UInt32.toNat_add, hshift]
      simp only [UInt32.toNat_one]
      omega
    simp only [UInt64.toNat_add, UInt64.toNat_mul, hsub, hoct, UInt64.toNat_ofNat]
    omega

/-- The upper bound of a bucket, where the shift may wrap around to zero. -/
theorem bucketUpper_toNat {i : UInt64} (hi : i.toNat < 3776) :
    (bucketUpper i).toNat = Histogram.lower 6 (i.toNat + 1) - 1 := by
  unfold bucketUpper
  rw [subCount_eq, Histogram.lower_succ]
  by_cases hlt : i.toNat < 64
  · rw [if_pos (UInt64.lt_iff_toNat_lt.2 hlt)]
    simp [Histogram.lower, Histogram.width, hlt]
  · rw [if_neg (by rw [UInt64.lt_iff_toNat_lt]; exact hlt)]
    obtain ⟨s, t, ht, hst⟩ := Histogram.exists_octave (k := 6) (i := i.toNat) (by simpa using hlt)
    obtain ⟨hlow, hwidth⟩ := Histogram.lower_octave (k := 6) (s := s) ht
    have ht : t < 64 := ht
    have hst : i.toNat = 64 * (s + 1) + t := hst
    have h64 : (64 : UInt64).toNat = 64 := rfl
    have hoct : (i / 64 - 1).toNat = s := by
      have hdiv : (i / 64).toNat = s + 1 := by
        rw [UInt64.toNat_div, hst, h64]
        omega
      rw [UInt64.toNat_sub_of_le _ _ (by rw [UInt64.le_iff_toNat_le, hdiv]; simp), hdiv]
      rfl
    have hsub : (64 + i % 64 + 1).toNat = 65 + t := by
      simp only [UInt64.toNat_add, UInt64.toNat_mod, hst, h64, UInt64.toNat_one]
      omega
    have hpow : 2 ^ s ≤ 2 ^ 57 := Nat.pow_le_pow_right (by decide) (by omega)
    have hpos := Nat.two_pow_pos s
    rw [hst]
    change _ = Histogram.lower 6 (2 ^ 6 * (s + 1) + t) + Histogram.width 6 (2 ^ 6 * (s + 1) + t) - 1
    rw [hlow, hwidth, show (2 ^ 6 + t) * 2 ^ s + 2 ^ s = (65 + t) * 2 ^ s by ring]
    have hle : (65 + t) * 2 ^ s ≤ 18446744073709551616 :=
      calc (65 + t) * 2 ^ s ≤ 128 * 2 ^ 57 := Nat.mul_le_mul (by omega) hpow
        _ = 18446744073709551616 := by norm_num
    have hge : 0 < (65 + t) * 2 ^ s := Nat.mul_pos (by omega) hpos
    rw [UInt64.toNat_sub, UInt64.toNat_shiftLeft, hsub, hoct, Nat.mod_eq_of_lt (by omega : s < 64),
      Nat.shiftLeft_eq]
    generalize (65 + t) * 2 ^ s = x at hle hge
    simp only [UInt64.toNat_one]
    omega

theorem lower_monotone : Monotone (Histogram.lower 6) := (Histogram.lower_strictMono 6).monotone

theorem inBucket (v : UInt64) :
    Histogram.InBucket (Histogram.lower 6) v.toNat (bucketIndex v).toNat := by
  rw [bucketIndex_toNat]
  exact Histogram.inBucket_index 6 v.toNat

theorem bucketIndex_lt (v : UInt64) : (bucketIndex v).toNat < 3776 := by
  rw [(inBucket v).lt_iff lower_monotone]
  have : Histogram.lower 6 3776 = 2 ^ 64 := by norm_num [Histogram.lower]
  rw [this]
  exact v.toNat_lt

theorem bucketIndex_eq_iff {v i : UInt64} :
    bucketIndex v = i ↔ Histogram.InBucket (Histogram.lower 6) v.toNat i.toNat := by
  constructor
  · rintro rfl
    exact inBucket v
  · intro h
    exact UInt64.toNat_inj.1 ((inBucket v).unique lower_monotone h)

theorem bucketIndex_mono {v w : UInt64} (h : v ≤ w) : bucketIndex v ≤ bucketIndex w :=
  UInt64.le_iff_toNat_le.2
    ((inBucket v).mono lower_monotone (inBucket w) (UInt64.le_iff_toNat_le.1 h))

theorem bucketIndex_lt_numBins (v : UInt64) :
    (bucketIndex v).toNat < numBins ↔ v.toNat < 2 ^ 42 := by
  rw [(inBucket v).lt_iff lower_monotone, numBins_eq]
  have : Histogram.lower 6 2368 = 2 ^ 42 := by norm_num [Histogram.lower]
  rw [this]

theorem bin_val (v : UInt64) :
    (bin v).val = if v.toNat < 2 ^ 42 then (bucketIndex v).toNat else numBins - 1 := by
  unfold bin
  simp only [← bucketIndex_lt_numBins]
  split <;> rfl

/-- The bound that is reported for a value is at most a 64th larger. -/
theorem bucketUpper_bucketIndex (v : UInt64) :
    v ≤ bucketUpper (bucketIndex v) ∧
      64 * ((bucketUpper (bucketIndex v)).toNat - v.toNat) ≤ v.toNat := by
  have hupper := bucketUpper_toNat (bucketIndex_lt v)
  have hrel : 64 * _ ≤ _ := Histogram.relative_width 6 (bucketIndex v).toNat
  obtain ⟨hlow, hlt⟩ := inBucket v
  rw [UInt64.le_iff_toNat_le, hupper]
  rw [Histogram.lower_succ] at hlt ⊢
  constructor <;> omega

/-- Bucket `i` holds `v` and ends with `u`. -/
structure Tile (v i u : UInt64) : Prop where
  le : v ≤ u
  error : 64 * (u.toNat - v.toNat) ≤ v.toNat
  last : bucketIndex u = i
  next : u.toNat < 2 ^ 64 - 1 → bucketIndex (u + 1) = i + 1

/-- Buckets tile the 64-bit range with a relative error of at most a 64th, in order, and
`record` clamps exactly the values from `2 ^ 42` on. -/
theorem bucket_spec (v : UInt64) :
    Tile v (bucketIndex v) (bucketUpper (bucketIndex v)) ∧
      (∀ w, v ≤ w → bucketIndex v ≤ bucketIndex w) ∧
      ((bucketIndex v).toNat < numBins ↔ v.toNat < 2 ^ maxBits.toNat) ∧
      (bin v).val =
        if v.toNat < 2 ^ maxBits.toNat then (bucketIndex v).toNat else numBins - 1 := by
  set i := bucketIndex v with hi
  set u := bucketUpper i with hu
  have hilt : i.toNat < 3776 := bucketIndex_lt v
  have hupper : u.toNat = _ := bucketUpper_toNat hilt
  obtain ⟨hlast, hnext⟩ := Histogram.inBucket_last (Histogram.lower_strictMono 6) i.toNat
  obtain ⟨hle, herr⟩ := bucketUpper_bucketIndex v
  refine ⟨⟨hle, herr, ?_, ?_⟩, fun w hw => bucketIndex_mono hw, bucketIndex_lt_numBins v,
    bin_val v⟩
  · rw [bucketIndex_eq_iff, hupper]
    exact hlast
  · intro hmax
    have hpos := Histogram.lower_strictMono 6 (Nat.succ_pos i.toNat)
    have hu' : (u + 1).toNat = Histogram.lower 6 (i.toNat + 1) := by
      rw [UInt64.toNat_add, UInt64.toNat_one, Nat.mod_eq_of_lt (by omega), hupper]
      simp only [Nat.succ_eq_add_one] at hpos
      omega
    have hi' : (i + 1).toNat = i.toNat + 1 := by
      rw [UInt64.toNat_add, UInt64.toNat_one]
      exact Nat.mod_eq_of_lt (by omega)
    rw [bucketIndex_eq_iff, hu', hi']
    exact hnext

end LatencyTracker

end LockfreeMatching
