import Mathlib.Logic.Function.Basic

/-!
# Ledgers with one entry per key

A ledger maps identifiers to entries, each a key with a value. It represents a total function
from keys to values when every key whose value is not `zero` has exactly one entry and that
entry carries the value. `index` is the inverse direction, from keys to identifiers, that a program
keeps to find the entry of a key.
-/
namespace LockfreeMatching.Lib

variable {I K V : Type}

abbrev Ledger (I K V : Type) := I → Option (K × V)

/-- One entry for every key with a value other than `zero`, and no others. -/
structure Denotes (zero : V) (l : Ledger I K V) (d : K → V) : Prop where
  entry : ∀ k, d k ≠ zero → ∃! i, ∃ v, l i = some (k, v)
  value : ∀ i k v, l i = some (k, v) → v = d k ∧ d k ≠ zero

/-- The ledger denotes `d`, and `index` finds the entry of each key. -/
structure Indexed (zero : V) (l : Ledger I K V) (index : K → Option I) (d : K → V) : Prop where
  found : ∀ k i, index k = some i ↔ ∃ v, l i = some (k, v)
  value : ∀ i k v, l i = some (k, v) → v = d k ∧ d k ≠ zero
  level : ∀ k, d k ≠ zero → index k ≠ none

namespace Indexed

variable {zero : V} {l : Ledger I K V} {index : K → Option I} {d : K → V}

theorem empty : Indexed zero (fun _ : I => none) (fun _ : K => none) (fun _ => zero) where
  found := by simp
  value := by simp
  level := by simp

/-- No two entries share a key. -/
theorem key_injective (h : Indexed zero l index d) {i j : I} {k : K} {v w : V}
    (hi : l i = some (k, v)) (hj : l j = some (k, w)) : i = j := by
  have hki := (h.found k i).2 ⟨v, hi⟩
  have hkj := (h.found k j).2 ⟨w, hj⟩
  exact Option.some.inj (hki.symm.trans hkj)

theorem denotes (h : Indexed zero l index d) : Denotes zero l d := by
  refine ⟨fun k hk => ?_, h.value⟩
  obtain ⟨i, hi⟩ := Option.ne_none_iff_exists'.1 (h.level k hk)
  obtain ⟨v, hv⟩ := (h.found k i).1 hi
  refine ⟨i, ⟨v, hv⟩, ?_⟩
  rintro j ⟨w, hw⟩
  exact h.key_injective hw hv

/-- The index misses exactly the keys without value. -/
theorem index_eq_none_iff (h : Indexed zero l index d) {k : K} : index k = none ↔ d k = zero := by
  constructor
  · intro hk
    by_contra hd
    exact h.level k hd hk
  · intro hd
    by_contra hk
    obtain ⟨i, hi⟩ := Option.ne_none_iff_exists'.1 hk
    obtain ⟨v, hv⟩ := (h.found k i).1 hi
    exact (h.value i k v hv).2 hd

/-- No two keys share an identifier. -/
theorem index_injective (h : Indexed zero l index d) {k k' : K} {i : I} (hk : index k = some i)
    (hk' : index k' = some i) : k = k' := by
  obtain ⟨v, hv⟩ := (h.found k i).1 hk
  obtain ⟨v', hv'⟩ := (h.found k' i).1 hk'
  exact congrArg Prod.fst (Option.some.inj (hv.symm.trans hv'))

theorem isSome_iff (h : Indexed zero l index d) {i : I} :
    (l i).isSome ↔ ∃ k, index k = some i := by
  rw [Option.isSome_iff_exists]
  constructor
  · rintro ⟨⟨k, v⟩, hi⟩
    exact ⟨k, (h.found k i).2 ⟨v, hi⟩⟩
  · rintro ⟨k, hk⟩
    obtain ⟨v, hv⟩ := (h.found k i).1 hk
    exact ⟨(k, v), hv⟩

variable [DecidableEq I] [DecidableEq K]

/-- A new identifier for a key without value. -/
theorem insert (h : Indexed zero l index d) {i : I} {k : K} {v : V} (hi : l i = none)
    (hk : d k = zero) (hv : v ≠ zero) :
    Indexed zero (Function.update l i (some (k, v))) (Function.update index k (some i))
      (Function.update d k v) := by
  have hnone : index k = none := h.index_eq_none_iff.2 hk
  refine ⟨fun k' j => ?_, fun j k' w hw => ?_, fun k' hk' => ?_⟩
  · by_cases hj : j = i
    · subst hj
      by_cases hkk : k' = k
      · simp [hkk]
      · have : index k' ≠ some j := by
          intro hc
          obtain ⟨w, hw⟩ := (h.found k' j).1 hc
          rw [hi] at hw
          cases hw
        simp [hkk, Ne.symm hkk, this]
    · by_cases hkk : k' = k
      · subst hkk
        have : ¬ ∃ w, l j = some (k', w) := by
          rw [← h.found k' j, hnone]
          simp
        simp [hj, Ne.symm hj, this]
      · simpa [hj, hkk] using h.found k' j
  · by_cases hj : j = i
    · subst hj
      rw [Function.update_self] at hw
      cases hw
      simpa using hv
    · rw [Function.update_of_ne hj] at hw
      obtain ⟨hval, hne⟩ := h.value j k' w hw
      have hkk : k' ≠ k := fun hc => hne (hc ▸ hk)
      simpa [hkk] using ⟨hval, hne⟩
  · by_cases hkk : k' = k
    · simp [hkk]
    · rw [Function.update_of_ne hkk] at hk' ⊢
      exact h.level k' hk'

/-- Deleting the entry of a key clears its value. -/
theorem delete (h : Indexed zero l index d) {i : I} {k : K} (hk : index k = some i) :
    Indexed zero (Function.update l i none) (Function.update index k none)
      (Function.update d k zero) := by
  refine ⟨fun k' j => ?_, fun j k' w hw => ?_, fun k' hk' => ?_⟩
  · by_cases hkk : k' = k
    · subst hkk
      have : j ≠ i → ¬ ∃ w, l j = some (k', w) := by
        intro hj
        rw [← h.found k' j, hk, Option.some.injEq]
        exact Ne.symm hj
      by_cases hj : j = i
      · simp [hj]
      · simp [hj, this hj]
    · have hi : index k' ≠ some i := fun hc => hkk (h.index_injective hc hk)
      by_cases hj : j = i
      · simp [hj, hkk, hi]
      · simpa [hj, hkk] using h.found k' j
  · have hj : j ≠ i := by
      rintro rfl
      simp at hw
    rw [Function.update_of_ne hj] at hw
    have hkk : k' ≠ k := by
      rintro rfl
      have := (h.found k' j).2 ⟨w, hw⟩
      exact hj (Option.some.inj (this.symm.trans hk))
    simpa [hkk] using h.value j k' w hw
  · have hkk : k' ≠ k := by
      rintro rfl
      simp at hk'
    rw [Function.update_of_ne hkk] at hk' ⊢
    exact h.level k' hk'

end Indexed

end LockfreeMatching.Lib
