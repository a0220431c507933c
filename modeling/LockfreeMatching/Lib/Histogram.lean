import Mathlib.Algebra.Order.Ring.Nat
import Mathlib.Data.Nat.Log
import Mathlib.Order.Monotone.Basic
import Mathlib.Tactic.Ring
import Mathlib.Tactic.Linarith

/-!
# Histograms with log-linear buckets

A histogram cuts the natural numbers at a monotone sequence of boundaries `b`; the number `n` is
in bucket `i` if `b i ≤ n < b (i + 1)`. The log-linear boundaries with `2 ^ k` sub-buckets give
every number below `2 ^ k` a bucket of its own and split every octave above into `2 ^ k` equal
parts, so that a bucket is at most a `2 ^ k`-th of the numbers in it wide.

Counting the elements up to a bucket is ranking them: `lt_countP_iff` reads an element of a
sorted list off a count.

## Main results

* `InBucket.unique`, `InBucket.mono`, `InBucket.lt_iff`: what boundaries determine.
* `inBucket_index`: the index computed from the leading bits is the bucket.
* `relative_width`: the relative error of reporting a bucket by its last element.
* `lt_countP_iff`: counts of an initial segment against sorted positions.
-/
namespace LockfreeMatching.Lib.Histogram

/-! ## Boundaries -/

section Boundaries

variable {b : ℕ → ℕ} {n m i j : ℕ}

def InBucket (b : ℕ → ℕ) (n i : ℕ) : Prop := b i ≤ n ∧ n < b (i + 1)

theorem InBucket.lt_iff (hb : Monotone b) (h : InBucket b n i) : i < j ↔ n < b j := by
  constructor
  · intro hij
    exact h.2.trans_le (hb hij)
  · intro hn
    by_contra hij
    have := hb (not_lt.1 hij)
    have := h.1
    omega

theorem InBucket.mono (hb : Monotone b) (h : InBucket b n i) (h' : InBucket b m j)
    (hnm : n ≤ m) : i ≤ j := by
  have := (h.lt_iff hb (j := j + 1)).2 (hnm.trans_lt h'.2)
  omega

theorem InBucket.unique (hb : Monotone b) (h : InBucket b n i) (h' : InBucket b n j) : i = j :=
  le_antisymm (h.mono hb h' le_rfl) (h'.mono hb h le_rfl)

/-- The last element of a bucket is in it, the next number in the next one. -/
theorem inBucket_last (hb : StrictMono b) (i : ℕ) :
    InBucket b (b (i + 1) - 1) i ∧ InBucket b (b (i + 1)) (i + 1) := by
  have h := hb (Nat.lt_succ_self i)
  have h' := hb (Nat.lt_succ_self (i + 1))
  simp only [Nat.succ_eq_add_one] at h h'
  refine ⟨⟨?_, ?_⟩, le_rfl, h'⟩ <;> omega

end Boundaries

/-! ## Log-linear boundaries -/

section LogLinear

variable {k n i : ℕ}

/-- First element of a bucket: octave `i / 2 ^ k`, sub-bucket `i % 2 ^ k`. -/
def lower (k i : ℕ) : ℕ :=
  if i < 2 ^ k then i else (2 ^ k + i % 2 ^ k) * 2 ^ (i / 2 ^ k - 1)

/-- Number of elements of a bucket. -/
def width (k i : ℕ) : ℕ := if i < 2 ^ k then 1 else 2 ^ (i / 2 ^ k - 1)

/-- The octave is given by the leading bit and the sub-bucket by the `k` bits behind it. -/
def index (k n : ℕ) : ℕ :=
  if n < 2 ^ k then n else 2 ^ k * (n.log2 - k + 1) + (n / 2 ^ (n.log2 - k) - 2 ^ k)

theorem width_pos (k i : ℕ) : 0 < width k i := by
  unfold width
  split
  · exact Nat.one_pos
  · exact Nat.two_pow_pos _

/-- Bucket `t` of octave `s`. -/
theorem octave {s t : ℕ} (ht : t < 2 ^ k) :
    ¬ 2 ^ k * (s + 1) + t < 2 ^ k ∧ (2 ^ k * (s + 1) + t) / 2 ^ k = s + 1 ∧
      (2 ^ k * (s + 1) + t) % 2 ^ k = t := by
  refine ⟨?_, ?_, ?_⟩
  · have := Nat.le_mul_of_pos_right (2 ^ k) (Nat.succ_pos s)
    simp only [Nat.succ_eq_add_one] at this
    omega
  · rw [Nat.mul_add_div (Nat.two_pow_pos k), Nat.div_eq_of_lt ht, Nat.add_zero]
  · rw [Nat.mul_add_mod, Nat.mod_eq_of_lt ht]

theorem lower_octave {s t : ℕ} (ht : t < 2 ^ k) :
    lower k (2 ^ k * (s + 1) + t) = (2 ^ k + t) * 2 ^ s ∧
      width k (2 ^ k * (s + 1) + t) = 2 ^ s := by
  obtain ⟨hge, hdiv, hmod⟩ := octave (s := s) ht
  simp [lower, width, hge, hdiv, hmod]

/-- Buckets above the exact ones belong to an octave. -/
theorem exists_octave (hi : ¬ i < 2 ^ k) : ∃ s t, t < 2 ^ k ∧ i = 2 ^ k * (s + 1) + t := by
  have hpos : 0 < i / 2 ^ k := Nat.div_pos (not_lt.1 hi) (Nat.two_pow_pos k)
  refine ⟨i / 2 ^ k - 1, i % 2 ^ k, Nat.mod_lt _ (Nat.two_pow_pos k), ?_⟩
  rw [Nat.sub_add_cancel hpos, Nat.div_add_mod]

theorem lower_succ (k i : ℕ) : lower k (i + 1) = lower k i + width k i := by
  by_cases hi : i < 2 ^ k
  · have hlow : lower k i + width k i = i + 1 := by simp [lower, width, hi]
    rw [hlow]
    by_cases hi' : i + 1 < 2 ^ k
    · simp [lower, hi']
    · have heq : i + 1 = 2 ^ k := by omega
      rw [heq]
      simpa using (lower_octave (k := k) (s := 0) (Nat.two_pow_pos k)).1
  · obtain ⟨s, t, ht, rfl⟩ := exists_octave hi
    obtain ⟨hlow, hwidth⟩ := lower_octave (s := s) ht
    rw [hlow, hwidth]
    by_cases ht' : t + 1 < 2 ^ k
    · rw [Nat.add_assoc, (lower_octave ht').1]
      ring
    · -- the last sub-bucket ends where the next octave begins
      obtain ht' : t + 1 = 2 ^ k := by omega
      have hnext := (lower_octave (k := k) (s := s + 1) (Nat.two_pow_pos k)).1
      rw [show 2 ^ k * (s + 1) + t + 1 = 2 ^ k * (s + 1 + 1) + 0 by rw [← ht']; ring, hnext, ← ht']
      ring

theorem lower_strictMono (k : ℕ) : StrictMono (lower k) :=
  strictMono_nat_of_lt_succ fun i => by
    have := width_pos k i
    rw [lower_succ]
    omega

theorem inBucket_index (k n : ℕ) : InBucket (lower k) n (index k n) := by
  rw [InBucket, lower_succ]
  by_cases hn : n < 2 ^ k
  · simp [index, lower, width, hn]
  · have hne : n ≠ 0 := by
      rintro rfl
      exact hn (Nat.two_pow_pos k)
    have hlog : k ≤ n.log2 := (Nat.le_log2 hne).2 (not_lt.1 hn)
    obtain ⟨s, hs⟩ := Nat.exists_eq_add_of_le hlog
    have hle : 2 ^ k * 2 ^ s ≤ n := by
      rw [← Nat.pow_add, ← hs]
      exact Nat.log2_self_le hne
    have hlt : n < 2 ^ k * 2 * 2 ^ s := by
      have := Nat.lt_log2_self (n := n)
      rw [hs] at this
      calc n < 2 ^ (k + s + 1) := this
        _ = 2 ^ k * 2 * 2 ^ s := by ring
    have hdiv : 2 ^ k ≤ n / 2 ^ s := (Nat.le_div_iff_mul_le (Nat.two_pow_pos s)).2 hle
    have hdiv' : n / 2 ^ s < 2 ^ k * 2 := (Nat.div_lt_iff_lt_mul (Nat.two_pow_pos s)).2 hlt
    have hindex : index k n = 2 ^ k * (s + 1) + (n / 2 ^ s - 2 ^ k) := by
      simp [index, hn, hs]
    obtain ⟨hlow, hwidth⟩ := lower_octave (k := k) (s := s) (t := n / 2 ^ s - 2 ^ k) (by omega)
    rw [hindex, hlow, hwidth, Nat.add_sub_cancel' hdiv]
    refine ⟨Nat.div_mul_le_self n _, ?_⟩
    rw [← Nat.succ_mul, mul_comm]
    exact Nat.lt_mul_div_succ n (Nat.two_pow_pos s)

/-- A bucket is at most a `2 ^ k`-th of its elements wide. -/
theorem relative_width (k i : ℕ) : 2 ^ k * (width k i - 1) ≤ lower k i := by
  by_cases hi : i < 2 ^ k
  · simp [width, hi]
  · obtain ⟨s, t, ht, rfl⟩ := exists_octave hi
    obtain ⟨hlow, hwidth⟩ := lower_octave (s := s) ht
    rw [hlow, hwidth]
    calc 2 ^ k * (2 ^ s - 1) ≤ 2 ^ k * 2 ^ s := Nat.mul_le_mul_left _ (Nat.sub_le _ _)
      _ ≤ (2 ^ k + t) * 2 ^ s := Nat.mul_le_mul_right _ (Nat.le_add_right _ _)

end LogLinear

/-! ## Ranks -/

/-- In a list sorted so that `p` holds on an initial segment, counting `p` is comparing
positions. -/
theorem lt_countP_iff {α : Type*} {p : α → Bool} {l : List α}
    (hl : l.Pairwise fun a b => p b = true → p a = true) {k : ℕ} (hk : k < l.length) :
    k < l.countP p ↔ p l[k] = true := by
  induction l generalizing k with
  | nil => simp at hk
  | cons a l ih =>
    obtain ⟨hhead, htail⟩ := List.pairwise_cons.1 hl
    by_cases ha : p a = true
    · rw [List.countP_cons_of_pos ha]
      cases k with
      | zero => simp [ha]
      | succ k =>
        have := ih htail (k := k) (by simpa using hk)
        simp only [List.getElem_cons_succ, ← this]
        omega
    · have hnone : ∀ b ∈ l, ¬ p b = true := fun b hb hpb => ha (hhead b hb hpb)
      have hzero : (a :: l).countP p = 0 := by
        rw [List.countP_eq_zero]
        intro b hb
        rcases List.mem_cons.1 hb with rfl | hb
        exacts [ha, hnone b hb]
      have hmem := List.getElem_mem hk
      rw [hzero]
      simp only [Nat.not_lt_zero, false_iff]
      rcases List.mem_cons.1 hmem with h | h
      · rw [h]; exact ha
      · exact hnone _ h

end LockfreeMatching.Lib.Histogram
