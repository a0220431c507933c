import Mathlib.Data.List.Sort
import Mathlib.Data.List.Nodup

/-!
# Insertion sort is stable

Inserting before the first element that is not smaller keeps equal elements in list order.
Two consequences are enough for a queue sorted by a key: sorting commutes with filtering,
and a filter that leaves only equivalent elements finds them in their original order. A
sorted list is determined by the order within each key (`eq_of_filter_key`), so anything
that keeps the order within each key is a stable sort.
-/
namespace LockfreeMatching.Lib

variable {α : Type*} {r : α → α → Prop} [DecidableRel r] [IsTrans α r] [Std.Total r]

omit [Std.Total r] in
theorem filter_orderedInsert (P : α → Bool) (a : α) (l : List α) (hl : l.Pairwise r) :
    (l.orderedInsert r a).filter P =
      if P a then (l.filter P).orderedInsert r a else l.filter P := by
  induction l with
  | nil => by_cases ha : P a <;> simp [ha]
  | cons b l ih =>
    obtain ⟨hb, hl'⟩ := List.pairwise_cons.1 hl
    by_cases hab : r a b
    · -- `a` precedes everything, so it also heads the filtered list
      have hall : ∀ c ∈ (b :: l).filter P, r a c := by
        intro c hc
        rcases List.mem_cons.1 (List.mem_of_mem_filter hc) with rfl | hc
        exacts [hab, IsTrans.trans a b c hab (hb c hc)]
      have hins : ((b :: l).filter P).orderedInsert r a = a :: (b :: l).filter P := by
        cases h : (b :: l).filter P with
        | nil => rfl
        | cons c t => simp [hall c (by simp [h])]
      rw [hins, List.orderedInsert_cons, if_pos hab]
      by_cases ha : P a <;> simp [ha]
    · rw [List.orderedInsert_cons, if_neg hab]
      by_cases hb : P b <;> by_cases ha : P a <;> simp [ha, hb, hab, ih hl']

theorem filter_insertionSort (P : α → Bool) (l : List α) :
    (l.insertionSort r).filter P = (l.filter P).insertionSort r := by
  induction l with
  | nil => rfl
  | cons a l ih =>
    rw [List.insertionSort_cons, filter_orderedInsert P a _ (List.pairwise_insertionSort r l), ih]
    by_cases ha : P a <;> simp [ha]

/-- Elements that a filter cannot tell apart by `r` come out in their original order. -/
theorem filter_insertionSort_of_equiv (P : α → Bool) (l : List α)
    (h : ∀ a ∈ l, ∀ b ∈ l, P a = true → P b = true → r a b) :
    (l.insertionSort r).filter P = l.filter P := by
  rw [filter_insertionSort]
  refine List.Pairwise.insertionSort_eq ?_
  refine List.pairwise_of_forall_mem_list ?_
  intro a ha b hb
  exact h a (List.mem_of_mem_filter ha) b (List.mem_of_mem_filter hb)
    (List.of_mem_filter ha) (List.of_mem_filter hb)

/-- The head of the sorted list precedes every element. -/
theorem insertionSort_head {l : List α} {a : α} {t : List α} (h : l.insertionSort r = a :: t) :
    a ∈ l ∧ ∀ b ∈ l, r a b := by
  have hmem : ∀ b, b ∈ l ↔ b ∈ a :: t := fun b => by rw [← h, List.mem_insertionSort]
  have hp : (a :: t).Pairwise r := h ▸ List.pairwise_insertionSort r l
  refine ⟨(hmem a).2 (by simp), fun b hb => ?_⟩
  rcases List.mem_cons.1 ((hmem b).1 hb) with rfl | hb
  · exact (Std.Total.total b b).elim id id
  · exact (List.pairwise_cons.1 hp).1 b hb

omit [DecidableRel r] [IsTrans α r] [Std.Total r] in
/-- Two sorted lists that agree on the elements of each key, in order, are equal. -/
theorem eq_of_filter_key {κ : Type*} [DecidableEq κ] (key : α → κ)
    (hkey : ∀ a b, r a b → r b a → key a = key b) {l l' : List α} (hl : l.Pairwise r)
    (hl' : l'.Pairwise r)
    (h : ∀ k, l.filter (fun a => key a = k) = l'.filter (fun a => key a = k)) : l = l' := by
  have hmem : ∀ a, a ∈ l ↔ a ∈ l' := by
    intro a
    have := congrArg (a ∈ ·) (h (key a))
    simpa using this
  induction l generalizing l' with
  | nil =>
    cases l' with
    | nil => rfl
    | cons b l' => simpa using (hmem b).2 (by simp)
  | cons a l ih =>
    cases l' with
    | nil => simpa using (hmem a).1 (by simp)
    | cons b l' =>
      obtain ⟨ha, hrest⟩ := List.pairwise_cons.1 hl
      obtain ⟨hb, hrest'⟩ := List.pairwise_cons.1 hl'
      -- whichever comes first in one list is not after the first of the other
      have hab : a = b := by
        by_contra hne
        have hmemb : b ∈ l := by simpa [Ne.symm hne] using (hmem b).2 (by simp)
        have hmema : a ∈ l' := by simpa [hne] using (hmem a).1 (by simp)
        have hk := hkey a b (ha b hmemb) (hb a hmema)
        have := h (key a)
        simp only [List.filter_cons, hk, decide_true, if_true] at this
        exact hne (List.cons.inj this).1
      subst hab
      have htail : ∀ k, l.filter (fun a => key a = k) = l'.filter (fun a => key a = k) := by
        intro k
        have := h k
        by_cases hk : key a = k
        · simpa [hk] using this
        · simpa [hk] using this
      have hmem' : ∀ c, c ∈ l ↔ c ∈ l' := by
        intro c
        have := congrArg (c ∈ ·) (htail (key c))
        simpa using this
      rw [ih hrest hrest' htail hmem']

end LockfreeMatching.Lib
