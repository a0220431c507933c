import Mathlib.Data.List.Nodup
import Mathlib.Logic.Function.Basic

/-!
# Linked lists over explicit link fields

A node type `α` with nullable `prev` and `next` fields kept outside the nodes.
`Chain next start l` says that following `next` from `start` visits exactly the finite
list `l` and then stops at null. `Deque.Represents d l` adds the backward links and the
two end pointers. The list is ghost data: it is determined by the links.

## Main results

* `Chain.unique`: two lists followed from the same start are equal.
* `Deque.Represents.chain_reverse`: the backward links spell out the list in reverse.
* `Deque.Represents.pushBack`, `Deque.Represents.unlink`: the pointer operations act on
  the list as append and as deletion of the node.
* `Deque.pushBack_frame`, `Deque.unlink_frame`: links of nodes outside are untouched.
-/
namespace LockfreeMatching.Lib

variable {α : Type*}

/-! ## Forward chains -/

/-- Following `next` from `start` visits `l` and ends at null. -/
def Chain (next : α → Option α) : Option α → List α → Prop
  | start, [] => start = none
  | start, x :: xs => start = some x ∧ Chain next (next x) xs

theorem Chain.unique {next : α → Option α} {start : Option α} {l l' : List α}
    (h : Chain next start l) (h' : Chain next start l') : l = l' := by
  induction l generalizing start l' with
  | nil => cases l' <;> simp_all [Chain]
  | cons x xs ih =>
    cases l' with
    | nil => simp_all [Chain]
    | cons y ys =>
      obtain ⟨hx, hc⟩ := h
      obtain ⟨hy, hc'⟩ := h'
      obtain rfl : x = y := Option.some.inj (hx.symm.trans hy)
      rw [ih hc hc']

theorem Chain.congr {next next' : α → Option α} {start : Option α} {l : List α}
    (h : Chain next start l) (heq : ∀ x ∈ l, next' x = next x) : Chain next' start l := by
  induction l generalizing start with
  | nil => exact h
  | cons x xs ih =>
    refine ⟨h.1, ?_⟩
    rw [heq x (by simp)]
    exact ih h.2 fun y hy => heq y (by simp [hy])

theorem Chain.head_eq {next : α → Option α} {start : Option α} {l : List α}
    (h : Chain next start l) : start = l.head? := by
  cases l with
  | nil => exact h
  | cons => exact h.1

/-! ## Doubly linked segments -/

/-- Link fields of all nodes together with the two end pointers of one list. -/
structure Deque (α : Type*) where
  prev : α → Option α
  next : α → Option α
  head : Option α
  tail : Option α

namespace Deque

/-- `l` is linked in both directions; `before` precedes its first node and `after`
follows its last one. -/
def Seg (d : Deque α) : Option α → List α → Option α → Prop
  | _, [], _ => True
  | before, x :: xs, after =>
      d.prev x = before ∧ d.next x = xs.head?.or after ∧ Seg d (some x) xs after

theorem seg_append (d : Deque α) (before after : Option α) (l₁ l₂ : List α) :
    d.Seg before (l₁ ++ l₂) after ↔
      d.Seg before l₁ (l₂.head?.or after) ∧ d.Seg (l₁.getLast?.or before) l₂ after := by
  induction l₁ generalizing before with
  | nil => simp [Seg]
  | cons x xs ih =>
    have hlast : (x :: xs).getLast?.or before = xs.getLast?.or (some x) := by
      cases h : xs.getLast? <;> simp [List.getLast?_cons, h]
    simp only [List.cons_append, Seg, ih, hlast, List.head?_append, Option.or_assoc, and_assoc]

theorem Seg.congr {d d' : Deque α} {before after : Option α} {l : List α}
    (h : d.Seg before l after)
    (heq : ∀ x ∈ l, d'.prev x = d.prev x ∧ d'.next x = d.next x) : d'.Seg before l after := by
  induction l generalizing before with
  | nil => trivial
  | cons x xs ih =>
    obtain ⟨hp, hn⟩ := heq x (by simp)
    exact ⟨hp.trans h.1, hn.trans h.2.1, ih h.2.2 fun y hy => heq y (by simp [hy])⟩

theorem Seg.chain {d : Deque α} {before : Option α} {l : List α} (h : d.Seg before l none) :
    Chain d.next l.head? l := by
  induction l generalizing before with
  | nil => rfl
  | cons x xs ih =>
    refine ⟨rfl, ?_⟩
    rw [h.2.1, Option.or_none]
    exact ih h.2.2

/-- The list determines the links of its nodes. -/
theorem Seg.links_eq {d d' : Deque α} {before after : Option α} {l : List α}
    (h : d.Seg before l after) (h' : d'.Seg before l after) {x : α} (hx : x ∈ l) :
    d'.prev x = d.prev x ∧ d'.next x = d.next x := by
  induction l generalizing before with
  | nil => cases hx
  | cons y ys ih =>
    rcases List.mem_cons.1 hx with rfl | hx
    · exact ⟨h'.1.trans h.1.symm, h'.2.1.trans h.2.1.symm⟩
    · exact ih h.2.2 h'.2.2 hx

/-- The list held between `d.head` and `d.tail`. -/
structure Represents (d : Deque α) (l : List α) : Prop where
  head : d.head = l.head?
  tail : d.tail = l.getLast?
  seg : d.Seg none l none
  nodup : l.Nodup

theorem Represents.chain {d : Deque α} {l : List α} (h : d.Represents l) :
    Chain d.next d.head l := h.head ▸ h.seg.chain

/-- The same nodes seen from the other end. -/
def mirror (d : Deque α) : Deque α where
  prev := d.next
  next := d.prev
  head := d.tail
  tail := d.head

theorem Seg.mirror {d : Deque α} {before after : Option α} {l : List α}
    (h : d.Seg before l after) : d.mirror.Seg after l.reverse before := by
  induction l generalizing before with
  | nil => trivial
  | cons x xs ih =>
    obtain ⟨hprev, hnext, hrest⟩ := h
    rw [List.reverse_cons, seg_append]
    refine ⟨ih hrest, ?_, hprev, trivial⟩
    simpa [Deque.mirror] using hnext

theorem Represents.mirror {d : Deque α} {l : List α} (h : d.Represents l) :
    d.mirror.Represents l.reverse where
  head := by simpa [Deque.mirror] using h.tail
  tail := by simpa [Deque.mirror] using h.head
  seg := h.seg.mirror
  nodup := List.nodup_reverse.2 h.nodup

/-- Following `prev` from the tail visits the list backwards. -/
theorem Represents.chain_reverse {d : Deque α} {l : List α} (h : d.Represents l) :
    Chain d.prev d.tail l.reverse := h.mirror.chain

theorem Represents.congr {d d' : Deque α} {l : List α} (h : d.Represents l)
    (hh : d'.head = d.head) (ht : d'.tail = d.tail)
    (heq : ∀ x ∈ l, d'.prev x = d.prev x ∧ d'.next x = d.next x) : d'.Represents l :=
  ⟨hh.trans h.head, ht.trans h.tail, h.seg.congr heq, h.nodup⟩

/-! ## Operations -/

variable [DecidableEq α]

/-- Append `x` behind the current tail. -/
def pushBack (d : Deque α) (x : α) : Deque α :=
  match d.tail with
  | none =>
    { prev := Function.update d.prev x none
      next := Function.update d.next x none
      head := some x
      tail := some x }
  | some t =>
    { prev := Function.update d.prev x (some t)
      next := Function.update (Function.update d.next x none) t (some x)
      head := d.head
      tail := some x }

/-- Let the predecessor of `x` (or the head pointer) skip `x`. -/
def bypassForward (d : Deque α) (x : α) : Deque α :=
  match d.prev x with
  | none => { d with head := d.next x }
  | some y => { d with next := Function.update d.next y (d.next x) }

/-- Let the successor of `x` (or the tail pointer) skip `x`. -/
def bypassBackward (d : Deque α) (x : α) : Deque α :=
  match d.next x with
  | none => { d with tail := d.prev x }
  | some z => { d with prev := Function.update d.prev z (d.prev x) }

/-- Null both links of `x`. -/
def clear (d : Deque α) (x : α) : Deque α :=
  { d with prev := Function.update d.prev x none, next := Function.update d.next x none }

/-- Take `x` out of the list, wherever it stands. -/
def unlink (d : Deque α) (x : α) : Deque α := ((d.bypassForward x).bypassBackward x).clear x

theorem pushBack_frame (d : Deque α) (x y : α) (hy : y ≠ x) (ht : d.tail ≠ some y) :
    (d.pushBack x).prev y = d.prev y ∧ (d.pushBack x).next y = d.next y := by
  unfold pushBack
  cases h : d.tail with
  | none => simp [hy]
  | some t =>
    have hyt : y ≠ t := by rintro rfl; exact ht h
    simp [hy, hyt]

theorem Represents.pushBack {d : Deque α} {l : List α} (h : d.Represents l) {x : α}
    (hx : x ∉ l) : (d.pushBack x).Represents (l ++ [x]) := by
  have hnodup : (l ++ [x]).Nodup :=
    List.nodup_append.2 ⟨h.nodup, by simp, by rintro a ha b hb rfl; simp_all⟩
  rcases List.eq_nil_or_concat l with rfl | ⟨m, t, rfl⟩
  · have ht : d.tail = none := h.tail
    refine ⟨by simp [Deque.pushBack, ht], by simp [Deque.pushBack, ht], ?_, hnodup⟩
    simp [Deque.pushBack, ht, Seg]
  · have ht : d.tail = some t := by rw [h.tail]; simp
    have hxt : x ≠ t := by rintro rfl; simp at hx
    have hseg := (seg_append d none none m [t]).1 (by simpa using h.seg)
    have htm : t ∉ m := by
      have := h.nodup
      simp only [List.concat_eq_append, List.nodup_append] at this
      intro hm
      exact this.2.2 t hm t (by simp) rfl
    refine ⟨?_, by simp [Deque.pushBack, ht], ?_, hnodup⟩
    · simp [Deque.pushBack, ht, h.head, List.head?_append]
    · rw [List.concat_eq_append, List.append_assoc, seg_append]
      refine ⟨hseg.1.congr ?_, ?_⟩
      · intro y hy
        have hyx : y ≠ x := by rintro rfl; exact hx (by simp [hy])
        refine pushBack_frame d x y hyx ?_
        rintro h'
        obtain rfl : t = y := Option.some.inj (ht.symm.trans h')
        exact htm hy
      · simp only [List.singleton_append, Seg]
        obtain ⟨hp, -⟩ := hseg.2
        simp [Deque.pushBack, ht, Function.update_of_ne hxt.symm, Function.update_of_ne hxt, hp]

/-- The fields `unlink` leaves behind, once `x` is known not to precede itself. -/
theorem unlink_eq (d : Deque α) (x : α) (hp : d.prev x ≠ some x) :
    d.unlink x =
      { prev := Function.update
          ((d.next x).elim d.prev fun z => Function.update d.prev z (d.prev x)) x none
        next := Function.update
          ((d.prev x).elim d.next fun y => Function.update d.next y (d.next x)) x none
        head := (d.prev x).elim (d.next x) fun _ => d.head
        tail := (d.next x).elim (d.prev x) fun _ => d.tail } := by
  unfold unlink clear bypassBackward bypassForward
  cases hp' : d.prev x with
  | none => cases hn' : d.next x <;> simp [hp']
  | some y =>
    have hxy : x ≠ y := by rintro rfl; exact hp hp'
    cases hn' : d.next x <;> simp [hp', hn', hxy]

omit [DecidableEq α] in
/-- Where a node of the list stands, its links are the neighbours in the list. -/
theorem Represents.links {d : Deque α} {l₁ l₂ : List α} {x : α}
    (h : d.Represents (l₁ ++ x :: l₂)) : d.prev x = l₁.getLast? ∧ d.next x = l₂.head? := by
  obtain ⟨-, hp, hn, -⟩ := (seg_append d none none l₁ (x :: l₂)).1 h.seg
  exact ⟨by simpa using hp, by simpa using hn⟩

omit [DecidableEq α] in
theorem Represents.prev_ne {d : Deque α} {l₁ l₂ : List α} {x : α}
    (h : d.Represents (l₁ ++ x :: l₂)) : d.prev x ≠ some x := by
  rw [h.links.1]
  intro he
  exact (List.nodup_cons.1 (List.nodup_middle.1 h.nodup)).1 (by simp [List.mem_of_getLast? he])

/-- Only `x` and its two neighbours in the list are rewired. -/
theorem Represents.unlink_frame {d : Deque α} {l₁ l₂ : List α} {x y : α}
    (h : d.Represents (l₁ ++ x :: l₂)) (hx : y ≠ x) (hp : l₁.getLast? ≠ some y)
    (hn : l₂.head? ≠ some y) :
    (d.unlink x).prev y = d.prev y ∧ (d.unlink x).next y = d.next y := by
  obtain ⟨hprev, hnext⟩ := h.links
  rw [unlink_eq d x h.prev_ne, hprev, hnext]
  constructor
  · cases hz : l₂.head? with
    | none => simp [hx]
    | some z =>
      have : y ≠ z := by rintro rfl; exact hn hz
      simp [hx, this]
  · cases hz : l₁.getLast? with
    | none => simp [hx]
    | some z =>
      have : y ≠ z := by rintro rfl; exact hp hz
      simp [hx, this]

theorem Represents.unlink {d : Deque α} {l₁ l₂ : List α} {x : α}
    (h : d.Represents (l₁ ++ x :: l₂)) : (d.unlink x).Represents (l₁ ++ l₂) := by
  obtain ⟨hprev, hnext⟩ := h.links
  obtain ⟨hx, hnodup⟩ := List.nodup_cons.1 (List.nodup_middle.1 h.nodup)
  have heq := unlink_eq d x h.prev_ne
  rw [hprev, hnext] at heq
  have hframe := fun y => h.unlink_frame (y := y)
  have hseg := (seg_append d none none l₁ (x :: l₂)).1 h.seg
  obtain ⟨-, hdisj⟩ := List.nodup_append.1 hnodup
  refine ⟨?_, ?_, ?_, hnodup⟩
  · rw [heq]
    rcases List.eq_nil_or_concat l₁ with rfl | ⟨m, y, rfl⟩
    · simp
    · simp [h.head, List.head?_append]
  · rw [heq]
    cases l₂ with
    | nil => simp
    | cons z m => simp [h.tail, List.getLast?_append, List.getLast?_cons]
  · rw [seg_append, Option.or_none, Option.or_none]
    constructor
    · -- the prefix ends in the predecessor of `x`, whose `next` now skips `x`
      rcases List.eq_nil_or_concat l₁ with rfl | ⟨m, y, rfl⟩
      · trivial
      · rw [List.concat_eq_append] at *
        obtain ⟨hm, hy⟩ := (seg_append d none (some x) m [y]).1 (by simpa using hseg.1)
        have hxy : y ≠ x := by rintro rfl; simp at hx
        rw [seg_append]
        refine ⟨hm.congr fun w hw => hframe w ?_ ?_ ?_, ?_, ?_, trivial⟩
        · rintro rfl; simp [hw] at hx
        · have : w ≠ y := by
            rintro rfl
            exact (List.nodup_append.1 (List.nodup_append.1 hnodup).1).2.2 w hw w (by simp) rfl
          simp [this.symm]
        · intro he
          exact hdisj.2 w (by simp [hw]) w (List.mem_of_head? he) rfl
        · rw [heq]
          have hz : ∀ z, l₂.head? = some z → y ≠ z := fun z he e =>
            hdisj.2 y (by simp) z (List.mem_of_head? he) e
          cases hl : l₂.head? with
          | none => simpa [hxy] using hy.1
          | some z => simpa [hxy, hz z hl] using hy.1
        · rw [heq]
          simp [hxy]
    · -- symmetrically, the suffix starts with the successor of `x`
      cases l₂ with
      | nil => trivial
      | cons z m =>
        obtain ⟨-, -, -, hz, hm⟩ := hseg.2
        have hxz : z ≠ x := by rintro rfl; simp at hx
        refine ⟨?_, ?_, hm.congr fun w hw => hframe w ?_ ?_ ?_⟩
        · rw [heq]
          simp [hxz]
        · rw [heq]
          have hy : ∀ y, l₁.getLast? = some y → z ≠ y := fun y he e =>
            hdisj.2 y (List.mem_of_getLast? he) z (by simp) e.symm
          cases hl : l₁.getLast? with
          | none => simpa [hxz] using hz
          | some y => simpa [hxz, hy y hl] using hz
        · rintro rfl; simp [hw] at hx
        · intro he
          exact hdisj.2 w (List.mem_of_getLast? he) w (by simp [hw]) rfl
        · have : w ≠ z := by
            rintro rfl
            exact (List.nodup_cons.1 hdisj.1).1 hw
          simp [this.symm]

end Deque

end LockfreeMatching.Lib
