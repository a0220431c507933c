import Mathlib.Data.List.DropRight
import Mathlib.Data.List.Rotate
import Mathlib.Data.Nat.ModEq
import Mathlib.Logic.Function.Basic

/-!
# Ring buffers indexed by wrapped counters

Producer and consumer count items without bound; a slot index is a counter modulo the number
`n` of slots. Two counters less than a lap apart share an index only if they are equal, which
is what makes comparing wrapped indices meaningful.

`Holds n buf start l` says that the items `l` lie in the slots from counter `start` on.

A ring that overwrites its oldest item when it is full is a list of slots rotated to the next
write position: a write there drops the first item and appends the new one
(`rotate_set_succ`), so that the ring shows the last items of all that were written.
-/
namespace LockfreeMatching.Lib

/-- Counters at most one lap apart wrap to the same index only at distance zero or one lap. -/
theorem mod_eq_mod_iff {n a b : Nat} (hab : a ≤ b) (hlap : b ≤ a + n) :
    b % n = a % n ↔ b = a ∨ b = a + n := by
  constructor
  · intro h
    have hdvd : n ∣ b - a := (Nat.modEq_iff_dvd' hab).1 h.symm
    obtain ⟨k, hk⟩ := hdvd
    rcases k with _ | _ | k
    · left; omega
    · right; omega
    · have : n * 2 ≤ n * (k + 1 + 1) := Nat.mul_le_mul_left n (by omega)
      rcases Nat.eq_zero_or_pos n with rfl | hn
      · left; omega
      · right; omega
  · rintro (rfl | rfl)
    · rfl
    · exact Nat.add_mod_right a n

variable {T : Type*}

/-- The items `l` lie in the slots that start at counter `start`. -/
def Holds (n : Nat) (buf : Nat → T) (start : Nat) (l : List T) : Prop :=
  ∀ j x, l[j]? = some x → buf ((start + j) % n) = x

/-- Only the index of the start matters. -/
theorem holds_mod {n start : Nat} {buf : Nat → T} {l : List T} :
    Holds n buf (start % n) l ↔ Holds n buf start l := by
  simp [Holds, Nat.mod_add_mod]

/-- The slot behind the last item differs from the slots in use. -/
theorem next_slot_ne {n start len j : Nat} (hj : j < len) (hroom : len < n) :
    (start + j) % n ≠ (start + len) % n := by
  intro h
  have := (mod_eq_mod_iff (n := n) (a := start + j) (b := start + len) (by omega) (by omega)).1
    h.symm
  omega

/-- Writing behind the last item leaves the items alone. -/
theorem Holds.write {n start : Nat} {buf : Nat → T} {l : List T} (h : Holds n buf start l)
    (hroom : l.length < n) (x : T) :
    Holds n (Function.update buf ((start + l.length) % n) x) start l := by
  intro j y hj
  have hlt : j < l.length := (List.getElem?_eq_some_iff.1 hj).1
  rw [Function.update_of_ne (next_slot_ne hlt hroom)]
  exact h j y hj

/-- The slot behind the last item becomes part of the contents. -/
theorem Holds.append {n start : Nat} {buf : Nat → T} {l : List T} (h : Holds n buf start l)
    {x : T} (hx : buf ((start + l.length) % n) = x) : Holds n buf start (l ++ [x]) := by
  intro j y hj
  rcases lt_or_ge j l.length with hlt | hge
  · rw [List.getElem?_append_left hlt] at hj
    exact h j y hj
  · rw [List.getElem?_append_right hge] at hj
    obtain ⟨hj0, rfl⟩ := List.getElem?_eq_some_iff.1 hj
    have : j = l.length := by simp at hj0; omega
    subst this
    simpa using hx

theorem Holds.head {n start : Nat} {buf : Nat → T} {x : T} {l : List T}
    (h : Holds n buf start (x :: l)) : buf (start % n) = x := h 0 x rfl

theorem Holds.tail {n start : Nat} {buf : Nat → T} {x : T} {l : List T}
    (h : Holds n buf start (x :: l)) : Holds n buf (start + 1) l := by
  intro j y hj
  have := h (j + 1) y (by simpa using hj)
  rwa [show start + (j + 1) = start + 1 + j by omega] at this

/-! ## Overwriting the oldest item -/

/-- Writing at the read position and advancing it. -/
theorem rotate_set_succ (l : List T) {h : Nat} (hh : h < l.length) (x : T) :
    (l.set h x).rotate ((h + 1) % l.length) = (l.rotate h).tail ++ [x] := by
  obtain ⟨a, y, b, rfl, rfl⟩ : ∃ a y b, l = a ++ y :: b ∧ a.length = h :=
    ⟨l.take h, l[h], l.drop (h + 1), by simp, by simp; omega⟩
  have hset : (a ++ y :: b).set a.length x = (a ++ [x]) ++ b := by simp
  have hlen : (a ++ y :: b).length = ((a ++ [x]) ++ b).length := by simp
  rw [hset, hlen, List.rotate_mod, List.rotate_append_length_eq,
    show a.length + 1 = (a ++ [x]).length by simp, List.rotate_append_length_eq]
  simp

theorem rtake_of_length_le {l : List T} {n : Nat} (h : l.length ≤ n) : l.rtake n = l := by
  simp [List.rtake, Nat.sub_eq_zero_of_le h]

theorem length_rtake (l : List T) (n : Nat) : (l.rtake n).length = min n l.length := by
  simp only [List.rtake, List.length_drop]
  omega

/-- What precedes the last `n` items does not matter for what is written later. -/
theorem rtake_rtake_append (l m : List T) (n : Nat) :
    (l.rtake n ++ m).rtake n = (l ++ m).rtake n := by
  simp only [List.rtake_eq_reverse_take_reverse]
  simp [List.take_append, List.take_take]

theorem rtake_append_rtake (l m : List T) (n : Nat) :
    (l ++ m.rtake n).rtake n = (l ++ m).rtake n := by
  simp only [List.rtake_eq_reverse_take_reverse]
  rcases Nat.le_total n m.length with h | h
  · simp [List.take_append, Nat.min_eq_left h, Nat.sub_eq_zero_of_le h]
  · simp [List.take_append, h]

/-- One more item: the oldest is dropped if there were `n`. -/
theorem rtake_concat_of_full {l : List T} {n : Nat} (h : n ≤ l.length) (hn : 0 < n) (x : T) :
    (l ++ [x]).rtake n = (l.rtake n).tail ++ [x] := by
  obtain ⟨n, rfl⟩ := Nat.exists_eq_add_of_le' hn
  rw [List.rtake_concat_succ, List.rtake, List.rtake, List.tail_drop]
  congr 2
  omega

end LockfreeMatching.Lib
