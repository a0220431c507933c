import Mathlib.Algebra.BigOperators.Group.List.Basic
import Mathlib.Tactic.Linarith
import Mathlib.Tactic.Ring

/-!
# Greedy allocation

Items with a capacity and a cost per unit. Taking as much as possible from each item, in the order
of the costs, gives the most units, and no other way to take as many is cheaper.

## Main results

* `greedy_takeCount`: how much is taken.
* `greedy_takeCost_le`: nothing is cheaper.
-/
namespace LockfreeMatching.Lib

variable {α : Type*} (cap : α → Nat) (cost : α → Int)

/-- Take from each item in turn what it has, as long as something is wanted. -/
def greedy : List α → Nat → List (α × Nat)
  | [], _ => []
  | a :: as, left => (a, min left (cap a)) :: greedy as (left - min left (cap a))

def takeCount (takes : List (α × Nat)) : Nat := (takes.map (·.2)).sum

def takeCost (takes : List (α × Nat)) : Int := (takes.map fun t => cost t.1 * t.2).sum

@[simp] theorem takeCount_cons (t : α × Nat) (takes : List (α × Nat)) :
    takeCount (t :: takes) = t.2 + takeCount takes := by
  simp [takeCount]

@[simp] theorem takeCost_cons (t : α × Nat) (takes : List (α × Nat)) :
    takeCost cost (t :: takes) = cost t.1 * t.2 + takeCost cost takes := by
  simp [takeCost]

theorem greedy_takeCount (l : List α) (left : Nat) :
    takeCount (greedy cap l left) = min left (l.map cap).sum := by
  fun_induction greedy cap l left with
  | case1 left => simp [takeCount]
  | case2 a as left ih =>
    simp only [takeCount_cons, ih, List.map_cons, List.sum_cons]
    omega

/-- Nothing is wanted, or nothing is there. -/
theorem greedy_nothing {l : List α} {left : Nat} (h : left = 0 ∨ ∀ a ∈ l, cap a = 0) :
    takeCount (greedy cap l left) = 0 ∧ takeCost cost (greedy cap l left) = 0 := by
  induction l generalizing left with
  | nil => exact ⟨rfl, rfl⟩
  | cons a as ih =>
    have hzero : min left (cap a) = 0 := by
      rcases h with rfl | h
      · exact Nat.zero_min _
      · rw [h a List.mem_cons_self, Nat.min_zero]
    have hrest := @ih left (h.imp_right fun h b hb => h b (List.mem_cons_of_mem a hb))
    simpa [greedy, hzero] using hrest

variable {cap cost} {l : List α} {y : α → Nat}

/-- With `d` units more, each of which costs at least `m`. -/
theorem greedy_takeCost_add_le (hl : l.Pairwise fun a b => cost a ≤ cost b)
    (hcap : ∀ a ∈ l, y a ≤ cap a) {left d : Nat} {m : Int} (hm : ∀ a ∈ l, m ≤ cost a)
    (hy : (l.map y).sum = takeCount (greedy cap l left) + d) :
    takeCost cost (greedy cap l left) + m * d ≤ (l.map fun a => cost a * y a).sum := by
  induction l generalizing left d m with
  | nil =>
    obtain rfl : d = 0 := by simpa [greedy, takeCount] using hy.symm
    simp [greedy, takeCost]
  | cons a as ih =>
    obtain ⟨ha, has⟩ := List.pairwise_cons.1 hl
    obtain ⟨hya, hyas⟩ := List.forall_mem_cons.1 hcap
    have hma := hm a List.mem_cons_self
    have hcount := greedy_takeCount cap as (left - min left (cap a))
    simp only [greedy, List.map_cons, List.sum_cons, takeCount_cons] at hy
    simp only [greedy, List.map_cons, List.sum_cons, takeCost_cons]
    -- the units not taken from the first item come from dearer ones
    obtain ⟨d', hd'⟩ : ∃ d', y a + d' = min left (cap a) + d :=
      ⟨min left (cap a) + d - y a, by omega⟩
    have hrestUnits :
        (as.map y).sum = takeCount (greedy cap as (left - min left (cap a))) + d' := by
      omega
    have hrest := ih has hyas ha hrestUnits
    have hunits : cost a * (y a : Int) + cost a * d' =
        cost a * (min left (cap a) : Nat) + cost a * d := by
      rw [← mul_add, ← mul_add]
      exact_mod_cast congrArg (fun n : Nat => cost a * (n : Int)) hd'
    have hextra : m * (d : Int) ≤ cost a * d := mul_le_mul_of_nonneg_right hma (by omega)
    linarith

/-- No other way to take as many units is cheaper. -/
theorem greedy_takeCost_le (hl : l.Pairwise fun a b => cost a ≤ cost b)
    (hcap : ∀ a ∈ l, y a ≤ cap a) {left : Nat}
    (hy : (l.map y).sum = takeCount (greedy cap l left)) :
    takeCost cost (greedy cap l left) ≤ (l.map fun a => cost a * y a).sum := by
  cases l with
  | nil => simp [greedy, takeCost]
  | cons a as =>
    have hm : ∀ b ∈ a :: as, cost a ≤ cost b := by
      simpa using fun b hb => List.rel_of_pairwise_cons hl hb
    simpa using greedy_takeCost_add_le hl hcap hm (show _ = _ + 0 from hy)

end LockfreeMatching.Lib
