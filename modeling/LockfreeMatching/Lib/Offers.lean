import Mathlib.Data.List.Induction

/-!
# Offers to a bounded buffer

The history of a buffer that takes what it has room for and refuses the rest: every item offered,
with whether it was taken.

## Main results

* `taken_sublist`: what was taken keeps its order.
* `countP_taken_add_refused`: every item was taken or refused, of each kind.
-/
namespace LockfreeMatching.Lib

variable {α : Type} (l : List (α × Bool))

def taken : List α := (l.filter (·.2)).map (·.1)

def refused : List α := (l.filter (!·.2)).map (·.1)

@[simp] theorem taken_nil : taken ([] : List (α × Bool)) = [] := rfl

@[simp] theorem refused_nil : refused ([] : List (α × Bool)) = [] := rfl

@[simp] theorem taken_concat (x : α) (b : Bool) :
    taken (l ++ [(x, b)]) = taken l ++ if b then [x] else [] := by
  cases b <;> simp [taken]

@[simp] theorem refused_concat (x : α) (b : Bool) :
    refused (l ++ [(x, b)]) = refused l ++ if b then [] else [x] := by
  cases b <;> simp [refused]

theorem countP_taken_add_refused (q : α → Bool) :
    (taken l).countP q + (refused l).countP q = (l.map (·.1)).countP q := by
  induction l using List.reverseRecOn with
  | nil => rfl
  | append_singleton l x ih =>
    obtain ⟨x, b⟩ := x
    cases b <;> simp at ih ⊢ <;> omega

theorem length_taken_add_refused : (taken l).length + (refused l).length = l.length := by
  simpa using countP_taken_add_refused l fun _ => true

theorem taken_sublist : (taken l).Sublist (l.map (·.1)) := List.filter_sublist.map _

end LockfreeMatching.Lib
