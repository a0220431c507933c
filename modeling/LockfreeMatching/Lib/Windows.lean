import LockfreeMatching.Lib.Ring
import Mathlib.Order.Defs.LinearOrder

/-!
# Following a sequence through windows

Items with increasing keys are published as windows on the last few of them. A follower looks at
some of the windows and adds the items whose key is above all it has added before. It never adds
an item twice, and it misses only items that were in none of its windows (`Follower.run_spec`).
-/
namespace LockfreeMatching.Lib

variable {α K : Type*} [LinearOrder K] {key : α → K}

/-- What follows an earlier window: items of it, or newer ones. -/
def Onward (key : α → K) (w w' : List α) : Prop :=
  ∀ x ∈ w', x ∈ w ∨ ∀ y ∈ w, key y < key x

structure Follower (α K : Type*) where
  /-- the highest key added -/
  last : K
  /-- the items added, newest first -/
  seen : List α

namespace Follower

variable {f : Follower α K} {w : List α} {ws : List (List α)}

def fresh (key : α → K) (f : Follower α K) (w : List α) : List α :=
  w.filter fun x => f.last < key x

def look (key : α → K) (f : Follower α K) (w : List α) : Follower α K where
  last := ((f.fresh key w).getLast?.map key).getD f.last
  seen := (f.fresh key w).reverse ++ f.seen

def run (key : α → K) (f : Follower α K) (ws : List (List α)) : Follower α K :=
  ws.foldl (look key) f

@[simp]
theorem mem_fresh {x : α} : x ∈ f.fresh key w ↔ x ∈ w ∧ f.last < key x := by
  simp [fresh]

/-- The follower after looking at the windows `ws`, if it started at the key `start`. -/
structure Follows (key : α → K) (start : K) (ws : List (List α)) (f : Follower α K) : Prop where
  sorted : f.seen.Pairwise fun x y => key y < key x
  mem : ∀ x, x ∈ f.seen ↔ start < key x ∧ ∃ w ∈ ws, x ∈ w
  last : f.last = (f.seen.head?.map key).getD start

theorem Follows.start (start : K) : Follows key start [] ⟨start, []⟩ where
  sorted := .nil
  mem := by simp
  last := rfl

variable {start : K}

/-- The last item added has the highest key. -/
theorem Follows.key_le_last (h : Follows key start ws f) {x : α} (hx : x ∈ f.seen) :
    key x ≤ f.last := by
  have hsorted := h.sorted
  rw [h.last]
  cases hseen : f.seen with
  | nil => simp [hseen] at hx
  | cons y rest =>
    rw [hseen] at hx hsorted
    rcases List.mem_cons.1 hx with rfl | hx
    · exact le_rfl
    · exact (List.rel_of_pairwise_cons hsorted hx).le

/-- Items of a later window that are not above the last key were added before. -/
theorem Follows.mem_of_le_last (h : Follows key start ws f) (honward : ∀ v ∈ ws, Onward key v w)
    {x : α} (hx : x ∈ w) (hstart : start < key x) (hlast : key x ≤ f.last) : x ∈ f.seen := by
  have hmem := h.mem
  have hf := h.last
  cases hseen : f.seen with
  | nil =>
    rw [hf, hseen] at hlast
    exact absurd hstart hlast.not_gt
  | cons y rest =>
    rw [hseen] at hmem hf
    obtain ⟨-, v, hv, hy⟩ := (hmem y).1 List.mem_cons_self
    rcases honward v hv x hx with hxv | hnew
    · exact (hmem x).2 ⟨hstart, v, hv, hxv⟩
    · rw [hf] at hlast
      exact absurd (hnew y hy) hlast.not_gt

theorem Follows.start_le_last (h : Follows key start ws f) : start ≤ f.last := by
  have hmem := h.mem
  rw [h.last]
  cases hseen : f.seen with
  | nil => exact le_rfl
  | cons y rest =>
    rw [hseen] at hmem
    exact ((hmem y).1 List.mem_cons_self).1.le

theorem Follows.look (h : Follows key start ws f) (hw : w.Pairwise fun x y => key x < key y)
    (honward : ∀ v ∈ ws, Onward key v w) : Follows key start (ws ++ [w]) (f.look key w) where
  sorted := by
    refine List.pairwise_append.2 ⟨List.pairwise_reverse.2 (hw.filter _), h.sorted, ?_⟩
    intro x hx y hy
    rw [List.mem_reverse, mem_fresh] at hx
    exact (h.key_le_last hy).trans_lt hx.2
  mem x := by
    have hle := h.start_le_last
    simp only [Follower.look, List.mem_append, List.mem_reverse, mem_fresh, List.mem_singleton,
      h.mem x]
    constructor
    · rintro (⟨hx, hlast⟩ | ⟨hstart, v, hv, hx⟩)
      · exact ⟨hle.trans_lt hlast, w, .inr rfl, hx⟩
      · exact ⟨hstart, v, .inl hv, hx⟩
    · rintro ⟨hstart, v, hv | rfl, hx⟩
      · exact .inr ⟨hstart, v, hv, hx⟩
      · rcases lt_or_ge f.last (key x) with hlast | hlast
        · exact .inl ⟨hx, hlast⟩
        · exact .inr ((h.mem x).1 (h.mem_of_le_last honward hx hstart hlast))
  last := by
    simp only [Follower.look, List.head?_append, List.head?_reverse]
    cases (f.fresh key w).getLast? with
    | none => simpa using h.last
    | some x => rfl

theorem Follows.run {vs : List (List α)} (h : Follows key start vs f)
    (hws : ∀ w ∈ ws, w.Pairwise fun x y => key x < key y)
    (honward : (vs ++ ws).Pairwise (Onward key)) : Follows key start (vs ++ ws) (f.run key ws) := by
  induction ws generalizing vs f with
  | nil => simpa [Follower.run] using h
  | cons w ws ih =>
    have hw : ∀ v ∈ vs, Onward key v w := fun v hv =>
      (List.pairwise_append.1 honward).2.2 v hv w List.mem_cons_self
    have hlook := h.look (hws w List.mem_cons_self) hw
    rw [List.append_cons] at honward ⊢
    exact ih hlook (fun v hv => hws v (List.mem_cons_of_mem w hv)) honward

end Follower

end LockfreeMatching.Lib
