import LockfreeMatching.Metrics.LatencyTracker
import Mathlib.Algebra.Order.Floor.Semiring
import Mathlib.Algebra.Order.BigOperators.Group.List
import Mathlib.Data.List.Induction

/-!
# What a tracker reports

`Represents t samples` says that the counters of `t` are those of the sample sequence, modulo
`2 ^ 64`. It holds after any sequence of calls, for the samples since the last reset. As the
bins are ordered like the values, scanning them up to a rank finds the bucket of the sample of
that rank.

## Main results

* `run_represents`: the counters after any calls.
* `run_percentile`: a percentile is the bucket of the sample of its rank.
* `run_mean_exact_iff`: the mean is exact as long as the sum of the samples fits 64 bits.
-/
namespace LockfreeMatching

open Lib

namespace LatencyTracker

inductive Call where
  | record (ns : UInt64)
  | reset

def apply (t : LatencyTracker) : Call → LatencyTracker
  | .record ns => t.record ns
  | .reset => t.reset

def run (calls : List Call) : LatencyTracker := calls.foldl apply {}

/-- The samples recorded since construction or the last reset. -/
def samples (calls : List Call) : List UInt64 :=
  calls.foldl (fun l call => match call with
    | .record ns => l ++ [ns]
    | .reset => []) []

structure Represents (t : LatencyTracker) (l : List UInt64) : Prop where
  bins : ∀ j, t.bins j = UInt64.ofNat (l.countP (bin · = j))
  count : t.count = UInt64.ofNat l.length
  sum : t.sum = UInt64.ofNat (l.map UInt64.toNat).sum
  max : ∀ s ∈ l, s ≤ t.maxValue
  min : ∀ s ∈ l, t.minValue ≤ s

theorem Represents.empty (t : LatencyTracker) : Represents t.reset [] where
  bins := by simp [reset]
  count := by simp [reset]
  sum := by simp [reset]
  max := by simp
  min := by simp

theorem Represents.record {t : LatencyTracker} {l : List UInt64} (h : Represents t l)
    (ns : UInt64) : Represents (t.record ns) (l ++ [ns]) where
  bins j := by
    by_cases hj : bin ns = j
    · subst hj
      simp [LatencyTracker.record, h.bins]
    · simp [LatencyTracker.record, h.bins, hj, Ne.symm hj]
  count := by simp [LatencyTracker.record, h.count]
  sum := by simp [LatencyTracker.record, h.sum]
  max s hs := by
    simp only [LatencyTracker.record]
    rcases List.mem_append.1 hs with hs | hs
    · have := h.max s hs
      grind
    · simp only [List.mem_singleton] at hs
      grind
  min s hs := by
    simp only [LatencyTracker.record]
    rcases List.mem_append.1 hs with hs | hs
    · have := h.min s hs
      grind
    · simp only [List.mem_singleton] at hs
      grind

/-- The counters after any calls. -/
theorem run_represents (calls : List Call) : Represents (run calls) (samples calls) := by
  induction calls using List.reverseRecOn with
  | nil => exact .empty {}
  | append_singleton calls call ih =>
    rw [run, samples, List.foldl_concat, List.foldl_concat]
    cases call with
    | record ns => exact ih.record ns
    | reset => exact .empty (run calls)

/-! ## Ranks -/

/-- Nearest rank of a percentile among `n` samples. -/
def rank (pct : ℚ) (n : ℕ) : ℕ := ⌊pct * n / 100 + 1 / 2⌋₊

theorem rank_le {pct : ℚ} (h : pct ≤ 100) (n : ℕ) : rank pct n ≤ n := by
  have hn : (0 : ℚ) ≤ n := n.cast_nonneg
  apply Nat.lt_succ_iff.1
  rw [rank, Nat.floor_lt' (Nat.succ_ne_zero n)]
  push_cast
  nlinarith

theorem rank_mono {pct pct' : ℚ} (h : pct ≤ pct') (n : ℕ) : rank pct n ≤ rank pct' n := by
  apply Nat.floor_le_floor
  gcongr

/-- From the median on there is always a sample of the rank. -/
theorem rank_pos {pct : ℚ} (h : 50 ≤ pct) {n : ℕ} (hn : 0 < n) : 1 ≤ rank pct n := by
  have hn : (1 : ℚ) ≤ n := by exact_mod_cast hn
  apply Nat.le_floor
  push_cast
  nlinarith

/-! ## The scan -/

section Scan

variable {t : LatencyTracker} {l : List UInt64}

theorem bin_of_lt {v : UInt64} (hv : v.toNat < 2 ^ 42) : (bin v).val = (bucketIndex v).toNat := by
  rw [bin_val, if_pos hv]

/-- Samples in the bins before `i`. -/
def below (l : List UInt64) (i : ℕ) : ℕ := l.countP fun s => (bin s).val < i

theorem below_succ (l : List UInt64) {i : ℕ} (hi : i < numBins) :
    below l (i + 1) = below l i + l.countP (bin · = ⟨i, hi⟩) := by
  induction l with
  | nil => rfl
  | cons s l ih =>
    simp only [below] at ih
    simp only [below, List.countP_cons, ih, Fin.ext_iff, decide_eq_true_eq]
    grind

theorem below_le (l : List UInt64) (i : ℕ) : below l i ≤ l.length := List.countP_le_length

theorem ofNat_le_iff {a b : ℕ} (ha : a < 18446744073709551616) (hb : b < 18446744073709551616) :
    UInt64.ofNat a ≤ UInt64.ofNat b ↔ a ≤ b := by
  rw [UInt64.le_iff_toNat_le, UInt64.toNat_ofNat', UInt64.toNat_ofNat', Nat.mod_eq_of_lt ha,
    Nat.mod_eq_of_lt hb]

/-- The scan stops at the first bin up to which there are `k` samples. -/
theorem Represents.scan (h : Represents t l) (hlen : l.length < 18446744073709551616) {k j : ℕ}
    (hk : k < 18446744073709551616) (hj : j < numBins) (hreach : k ≤ below l (j + 1)) {i : ℕ}
    (hij : i ≤ j) (hskip : ∀ m, i ≤ m → m < j → below l (m + 1) < k) :
    scan t (UInt64.ofNat k) i (UInt64.ofNat (below l i)) = bucketUpper (UInt64.ofNat j) := by
  induction hn : j - i generalizing i with
  | zero =>
    obtain rfl : i = j := by omega
    have hle := below_le l (i + 1)
    have hcum : UInt64.ofNat (below l i) + t.bins ⟨i, hj⟩ = UInt64.ofNat (below l (i + 1)) := by
      rw [below_succ l hj, h.bins, UInt64.ofNat_add]
    rw [LatencyTracker.scan, dif_pos hj, hcum, if_pos ((ofNat_le_iff hk (by omega)).2 hreach)]
  | succ n ih =>
    have hi : i < numBins := by omega
    have hle := below_le l (i + 1)
    have hcum : UInt64.ofNat (below l i) + t.bins ⟨i, hi⟩ = UInt64.ofNat (below l (i + 1)) := by
      rw [below_succ l hi, h.bins, UInt64.ofNat_add]
    have hlt := hskip i le_rfl (by omega)
    rw [LatencyTracker.scan, dif_pos hi, hcum,
      if_neg (by rw [ofNat_le_iff hk (by omega)]; omega)]
    exact ih (by omega) (fun m hm hmj => hskip m (by omega) hmj) (by omega)

/-- The samples in increasing order. -/
def sorted (l : List UInt64) : List UInt64 := l.mergeSort fun a b => decide (a ≤ b)

theorem sorted_pairwise (l : List UInt64) : (sorted l).Pairwise (· ≤ ·) := by
  have hsorted : (sorted l).Pairwise fun a b => decide (a ≤ b) = true := by
    apply List.pairwise_mergeSort
    · intro a b c hab hbc
      rw [decide_eq_true_eq] at hab hbc ⊢
      exact UInt64.le_trans hab hbc
    · intro a b
      simpa using UInt64.le_total a b
  simpa using hsorted

theorem length_sorted (l : List UInt64) : (sorted l).length = l.length := List.length_mergeSort l

/-- At least `k + 1` samples are in the bins up to `j` iff the sample of that rank is. -/
theorem lt_below_iff (hsmall : ∀ s ∈ l, s.toNat < 2 ^ 42) {k j : ℕ} (hk : k < (sorted l).length) :
    k < below l (j + 1) ↔ (bucketIndex (sorted l)[k]).toNat ≤ j := by
  have hmem : ∀ s ∈ sorted l, s.toNat < 2 ^ 42 := fun s hs => hsmall s (List.mem_mergeSort.1 hs)
  have hperm : below l (j + 1) = (sorted l).countP fun s => (bin s).val < j + 1 :=
    ((List.mergeSort_perm l _).countP_eq _).symm
  rw [hperm, Histogram.lt_countP_iff _ hk, decide_eq_true_eq, Nat.lt_succ_iff,
    bin_of_lt (hmem _ (List.getElem_mem hk))]
  refine ((sorted_pairwise l).imp_of_mem fun {a b} ha hb hab hlt => ?_)
  have hmono := UInt64.le_iff_toNat_le.1 (bucketIndex_mono hab)
  rw [decide_eq_true_eq, bin_of_lt (hmem _ hb)] at hlt
  rw [decide_eq_true_eq, bin_of_lt (hmem _ ha)]
  omega

theorem Represents.count_toNat (h : Represents t l) (hlen : l.length < 18446744073709551616) :
    t.count.toNat = l.length := by
  rw [h.count, UInt64.toNat_ofNat', Nat.mod_eq_of_lt hlen]

theorem Represents.target_eq (h : Represents t l) (hlen : l.length < 18446744073709551616)
    (pct : ℚ) : ⌊pct / 100 * t.count.toNat + 1 / 2⌋₊ = rank pct l.length := by
  rw [rank, h.count_toNat hlen]
  congr 1
  ring

/-- The value reported for rank `k`. -/
theorem Represents.percentile_eq (h : Represents t l) (hlen : l.length < 18446744073709551616)
    (hsmall : ∀ s ∈ l, s.toNat < 2 ^ 42) {pct : ℚ} (hpct : pct ≤ 100) {k : ℕ}
    (hk : rank pct l.length = k + 1) (hkl : k < (sorted l).length) :
    t.percentile pct = bucketUpper (bucketIndex (sorted l)[k]) := by
  have hrank := rank_le hpct l.length
  have hne : t.count ≠ 0 := by
    intro hz
    have hcount := h.count_toNat hlen
    rw [hz, UInt64.toNat_zero] at hcount
    omega
  have hbin : (bucketIndex (sorted l)[k]).toNat < numBins := by
    rw [bucketIndex_lt_numBins]
    exact hsmall _ (List.mem_mergeSort.1 (List.getElem_mem hkl))
  rw [percentile, if_neg hne, h.target_eq hlen, hk]
  have hscan := h.scan hlen (k := k + 1) (i := 0) (by omega) hbin
    ((lt_below_iff hsmall hkl).2 le_rfl) (Nat.zero_le _) fun m _ hm => ?_
  · have hzero : below l 0 = 0 := by simp [below]
    rw [hzero, UInt64.ofNat_toNat] at hscan
    exact hscan
  · have := (lt_below_iff hsmall hkl (j := m)).not.2 (by omega)
    omega

/-- Rank zero is reported as the first bin. -/
theorem Represents.percentile_zero (h : Represents t l) {pct : ℚ}
    (hlen : l.length < 18446744073709551616) (hk : rank pct l.length = 0) :
    t.percentile pct = 0 := by
  rw [percentile, h.target_eq hlen, hk]
  split
  · rfl
  · rw [LatencyTracker.scan, dif_pos (by decide), if_pos (by simp)]
    rfl

theorem bucketUpper_mono {i j : UInt64} (hj : j.toNat < 3776) (hij : i ≤ j) :
    bucketUpper i ≤ bucketUpper j := by
  have hij := UInt64.le_iff_toNat_le.1 hij
  have hmono := lower_monotone (Nat.succ_le_succ hij)
  simp only [Nat.succ_eq_add_one] at hmono
  rw [UInt64.le_iff_toNat_le, bucketUpper_toNat hj, bucketUpper_toNat (by omega)]
  omega

/-- A higher percentile is not reported lower. -/
theorem Represents.percentile_mono (h : Represents t l) (hlen : l.length < 18446744073709551616)
    (hsmall : ∀ s ∈ l, s.toNat < 2 ^ 42) {pct pct' : ℚ} (hle : pct ≤ pct') (hpct : pct' ≤ 100) :
    t.percentile pct ≤ t.percentile pct' := by
  have hrank := rank_mono hle l.length
  have hrank' := rank_le hpct l.length
  cases hk : rank pct l.length with
  | zero =>
    rw [h.percentile_zero hlen hk]
    exact UInt64.zero_le
  | succ k =>
    obtain ⟨k', hk'⟩ := Nat.exists_eq_add_of_le' (show 1 ≤ rank pct' l.length by omega)
    have hkl : k < (sorted l).length := by rw [length_sorted]; omega
    have hkl' : k' < (sorted l).length := by rw [length_sorted]; omega
    rw [h.percentile_eq hlen hsmall (hle.trans hpct) hk hkl,
      h.percentile_eq hlen hsmall hpct hk' hkl']
    apply bucketUpper_mono (bucketIndex_lt _)
    apply bucketIndex_mono
    rcases Nat.lt_or_ge k k' with hlt | hge
    · exact List.pairwise_iff_getElem.1 (sorted_pairwise l) k k' hkl hkl' hlt
    · obtain rfl : k = k' := by omega
      exact UInt64.le_refl _

end Scan

/-- The reported value is the upper bound of the bucket of the sample of rank `rank pct n`. -/
def PercentileExact (calls : List Call) (pct : ℚ) : Prop :=
  ∃ s, (sorted (samples calls))[rank pct (samples calls).length - 1]? = some s ∧
    (run calls).percentile pct = bucketUpper (bucketIndex s)

/-- After any calls with fewer than `2 ^ 64` samples since the last reset, all below `2 ^ 42`:
percentiles are the order statistics within a 64th, and monotone. The usual ones always have a
rank. -/
theorem run_percentile (calls : List Call) (hne : samples calls ≠ [])
    (hlen : (samples calls).length < 2 ^ 64) (hsmall : ∀ s ∈ samples calls, s.toNat < 2 ^ 42) :
    (∀ pct : ℚ, 0 ≤ pct → pct ≤ 100 → 1 ≤ rank pct (samples calls).length →
      PercentileExact calls pct ∧
      ∃ s, (sorted (samples calls))[rank pct (samples calls).length - 1]? = some s ∧
        s ≤ (run calls).percentile pct ∧
        64 * (((run calls).percentile pct).toNat - s.toNat) ≤ s.toNat) ∧
    (∀ pct : ℚ, 50 ≤ pct → 1 ≤ rank pct (samples calls).length) ∧
    ∀ pct pct' : ℚ, 0 ≤ pct → pct ≤ pct' → pct' ≤ 100 →
      (run calls).percentile pct ≤ (run calls).percentile pct' := by
  have hrep := run_represents calls
  refine ⟨fun pct hpos hpct hrank => ?_, fun pct hpct => ?_, fun pct pct' _ hle hpct => ?_⟩
  · have hle := rank_le hpct (samples calls).length
    obtain ⟨k, hk⟩ := Nat.exists_eq_add_of_le' hrank
    have hkl : k < (sorted (samples calls)).length := by rw [length_sorted]; omega
    have heq := hrep.percentile_eq hlen hsmall hpct hk hkl
    have hget : (sorted (samples calls))[rank pct (samples calls).length - 1]? =
        some (sorted (samples calls))[k] := by
      rw [hk, Nat.add_sub_cancel, List.getElem?_eq_getElem hkl]
    refine ⟨⟨_, hget, heq⟩, _, hget, ?_⟩
    rw [heq]
    exact bucketUpper_bucketIndex _
  · exact rank_pos hpct (List.length_pos_iff.2 hne)
  · exact hrep.percentile_mono hlen hsmall hle hpct

/-- The samples before a reset do not count. -/
theorem run_percentile_afterReset :
    PercentileExact [.record 7, .reset, .record 300, .record 100] 50 :=
  ((run_percentile [.record 7, .reset, .record 300, .record 100] (by simp [samples])
    (by simp [samples]) (by simp [samples])).1 50 (by norm_num) (by norm_num)
    (rank_pos le_rfl (by simp [samples]))).1

theorem samples_replicate (n : ℕ) (ns : UInt64) :
    samples (List.replicate n (.record ns)) = List.replicate n ns := by
  induction n with
  | zero => rfl
  | succ n ih =>
    rw [List.replicate_succ', samples, List.foldl_concat]
    change samples _ ++ _ = _
    rw [ih, ← List.replicate_succ']

/-- `2 ^ 64` samples: the counter is back at zero, and the tracker reports nothing. -/
theorem run_percentile_wraps :
    ∃ calls, samples calls ≠ [] ∧ (∀ s ∈ samples calls, s.toNat < 2 ^ 42) ∧
      1 ≤ rank 50 (samples calls).length ∧ ¬ PercentileExact calls 50 := by
  refine ⟨List.replicate 18446744073709551616 (.record 1), ?_⟩
  have hsamples := samples_replicate 18446744073709551616 1
  have hne : samples (List.replicate 18446744073709551616 (.record 1)) ≠ [] := by
    rw [hsamples, ne_eq, List.replicate_eq_nil_iff]
    omega
  refine ⟨hne, ?_, rank_pos le_rfl (List.length_pos_iff.2 hne), ?_⟩
  · intro s hs
    rw [hsamples] at hs
    rw [List.eq_of_mem_replicate hs]
    decide
  · rintro ⟨s, hs, heq⟩
    have hmem := List.mem_mergeSort.1 (List.mem_of_getElem? hs)
    rw [hsamples] at hmem
    have hcount := (run_represents (List.replicate 18446744073709551616 (.record 1))).count
    rw [hsamples, List.length_replicate] at hcount
    have hzero : (run (List.replicate 18446744073709551616 (.record 1))).percentile 50 = 0 := by
      have hz : (run (List.replicate 18446744073709551616 (.record 1))).count = 0 := hcount
      rw [percentile, if_pos hz]
    rw [hzero, List.eq_of_mem_replicate hmem] at heq
    revert heq
    decide

/-! ## The mean -/

/-- The mean is the true one, rounded down, and lies between the extremes. -/
def MeanExact (calls : List Call) : Prop :=
  (run calls).mean.toNat = ((samples calls).map UInt64.toNat).sum / (samples calls).length ∧
    (run calls).min ≤ (run calls).mean ∧ (run calls).mean ≤ (run calls).max

section Mean

variable {t : LatencyTracker} {l : List UInt64}

theorem sum_le_mul {m : ℕ} (h : ∀ s ∈ l, s.toNat ≤ m) :
    (l.map UInt64.toNat).sum ≤ l.length * m := by
  have := List.sum_le_card_nsmul (l.map UInt64.toNat) m (by simpa using h)
  simpa using this

theorem mul_le_sum {m : ℕ} (h : ∀ s ∈ l, m ≤ s.toNat) :
    l.length * m ≤ (l.map UInt64.toNat).sum := by
  have := List.card_nsmul_le_sum (l.map UInt64.toNat) m (by simpa using h)
  simpa using this

/-- The mean that is reported, of the wrapped sum. -/
theorem Represents.mean_toNat (h : Represents t l) (hne : l ≠ [])
    (hlen : l.length < 18446744073709551616) :
    t.mean.toNat = (l.map UInt64.toNat).sum % 18446744073709551616 / l.length ∧
      t.min = t.minValue := by
  have hcount := h.count_toNat hlen
  have hpos := List.length_pos_iff.2 hne
  have hz : t.count ≠ 0 := by
    intro hz
    rw [hz, UInt64.toNat_zero] at hcount
    omega
  refine ⟨?_, by rw [LatencyTracker.min, if_pos hz]⟩
  rw [mean, if_pos hz, UInt64.toNat_div, hcount, h.sum, UInt64.toNat_ofNat']

/-- Dropping a multiple of `2 ^ 64` changes the quotient by less than `2 ^ 64` numbers. -/
theorem div_wrapped_iff {s n : ℕ} (hn : 0 < n) (hlen : n < 18446744073709551616) :
    s % 18446744073709551616 / n = s / n ↔ s < 18446744073709551616 := by
  constructor
  · intro heq
    by_contra hge
    have hstep : s % 18446744073709551616 / n + 1 ≤ s / n :=
      calc s % 18446744073709551616 / n + 1 = (s % 18446744073709551616 + n) / n :=
            (Nat.add_div_right _ hn).symm
        _ ≤ s / n := Nat.div_le_div_right (by omega)
    omega
  · intro hlt
    rw [Nat.mod_eq_of_lt hlt]

end Mean

/-- After any calls with at most `2 ^ 64 - 1` samples since the last reset, the mean is exact iff
the sum of the samples fits 64 bits. -/
theorem run_mean_exact_iff (calls : List Call) (hne : samples calls ≠ [])
    (hlen : (samples calls).length ≤ 2 ^ 64 - 1) :
    MeanExact calls ↔ ((samples calls).map UInt64.toNat).sum < 2 ^ 64 := by
  have hrep := run_represents calls
  have hpos := List.length_pos_iff.2 hne
  have hlen : (samples calls).length < 18446744073709551616 := by omega
  obtain ⟨hmean, hmin⟩ := hrep.mean_toNat hne hlen
  rw [MeanExact, hmean, div_wrapped_iff hpos hlen]
  refine ⟨fun h => h.1, fun h => ⟨h, ?_, ?_⟩⟩
  · have h : _ < 18446744073709551616 := h
    rw [hmin, UInt64.le_iff_toNat_le, hmean, Nat.mod_eq_of_lt h, Nat.le_div_iff_mul_le hpos,
      Nat.mul_comm]
    exact mul_le_sum fun s hs => UInt64.le_iff_toNat_le.1 (hrep.min s hs)
  · have h : _ < 18446744073709551616 := h
    rw [UInt64.le_iff_toNat_le, hmean, Nat.mod_eq_of_lt h]
    apply Nat.div_le_of_le_mul
    exact sum_le_mul fun s hs => UInt64.le_iff_toNat_le.1 (hrep.max s hs)

theorem run_mean_exact_three : MeanExact [.record 100, .record 200, .record 300] :=
  (run_mean_exact_iff [.record 100, .record 200, .record 300] (by simp [samples])
    (by simp [samples])).2 (by simp [samples])

/-- Two samples of `2 ^ 63` have mean zero. -/
theorem run_mean_wraps :
    samples [.record 9223372036854775808, .record 9223372036854775808] ≠ [] ∧
      (run [.record 9223372036854775808, .record 9223372036854775808]).mean = 0 ∧
      ¬ MeanExact [.record 9223372036854775808, .record 9223372036854775808] := by
  refine ⟨by decide, by decide, ?_⟩
  rintro ⟨hmean, -⟩
  revert hmean
  decide

end LatencyTracker

end LockfreeMatching
