import LockfreeMatching.Core.PriceLevel

/-!
# Runs of a price level

Sequences of `push_back`, `remove` and `pop_front` on one level that starts empty, in memory
that may hold anything else, other levels included. The queue a level stands for is a list:
`push_back` appends, `remove` deletes, `pop_front` drops the first entry. An order may come
back after it was removed.

## Main results

* `levelRun_refines_listRun`: after each operation the links spell out the list in both
  directions, and nothing outside the level is touched.
-/
namespace LockfreeMatching

open Lib

inductive LevelOp where
  | pushBack (p : Ptr)
  | remove (p : Ptr)
  | popFront
deriving DecidableEq

namespace LevelOp

def apply (op : LevelOp) (s : Heap × PriceLevel) : Heap × PriceLevel :=
  match op with
  | .pushBack p => s.2.pushBack s.1 p
  | .remove p => s.2.remove s.1 p
  | .popFront => (s.2.popFront s.1).2

/-- The operation on the queue the level stands for. -/
def onList (op : LevelOp) (l : List Ptr) : List Ptr :=
  match op with
  | .pushBack p => l ++ [p]
  | .remove p => l.erase p
  | .popFront => l.tail

/-- What the caller owes: a pushed order is not in the level, a removed one is, and the 32-bit
count has room. -/
def Allowed (op : LevelOp) (l : List Ptr) : Prop :=
  match op with
  | .pushBack p => p ∉ l ∧ l.length < 2 ^ 32 - 1
  | .remove p => p ∈ l
  | .popFront => True

instance decidableAllowed : (op : LevelOp) → (l : List Ptr) → Decidable (op.Allowed l)
  | .pushBack p, l => inferInstanceAs (Decidable (p ∉ l ∧ l.length < 2 ^ 32 - 1))
  | .remove p, l => inferInstanceAs (Decidable (p ∈ l))
  | .popFront, _ => inferInstanceAs (Decidable True)

end LevelOp

/-- Memory and level after operations on an empty level. -/
def levelRun (h : Heap) (ops : List LevelOp) : Heap × PriceLevel :=
  ops.foldl (fun s op => op.apply s) (h, {})

/-- The queue after operations on an empty one. -/
def listRun (ops : List LevelOp) : List Ptr := ops.foldl (fun l op => op.onList l) []

/-- Every operation is allowed where it occurs. -/
def AllowedRun : List Ptr → List LevelOp → Prop
  | _, [] => True
  | l, op :: ops => op.Allowed l ∧ AllowedRun (op.onList l) ops

instance decidableAllowedRun : (l : List Ptr) → (ops : List LevelOp) →
    Decidable (AllowedRun l ops)
  | _, [] => inferInstanceAs (Decidable True)
  | l, op :: ops =>
    have := decidableAllowedRun (op.onList l) ops
    inferInstanceAs (Decidable (op.Allowed l ∧ AllowedRun (op.onList l) ops))

/-- The links spell out the list `l`, forwards from the head and backwards from the tail. -/
structure Spells (s : Heap × PriceLevel) (l : List Ptr) : Prop where
  forward : Chain (fun p => (s.1.order p).next) s.2.head l
  backward : Chain (fun p => (s.1.order p).prev) s.2.tail l.reverse
  head_null : s.2.head = none ↔ l = []
  tail_null : s.2.tail = none ↔ l = []
  count : s.2.orderCount.toNat = l.length

def Unlinked (h : Heap) (p : Ptr) : Prop := (h.order p).prev = none ∧ (h.order p).next = none

/-! ## One operation -/

/-- What one operation does to a level that holds `l`. -/
structure OpSpec (s s' : Heap × PriceLevel) (l l' : List Ptr) : Prop where
  rep : LevelRep s'.1 s'.2 l'
  frame : ∀ q, q ∉ l → q ∉ l' → s'.1 q = s.1 q
  removed : ∀ p, p ∈ l → p ∉ l' → Unlinked s'.1 p

section Step

variable {s : Heap × PriceLevel} {l : List Ptr}

theorem opSpec_pushBack (hr : LevelRep s.1 s.2 l) {p : Ptr} (hp : p ∉ l) :
    OpSpec s (s.2.pushBack s.1 p) l (l ++ [p]) where
  rep := hr.pushBack hp
  frame q _ hq := (pushBack_relinked hr p).frame q (by simp_all)
  removed q hq hq' := by simp [hq] at hq'

theorem opSpec_remove (hr : LevelRep s.1 s.2 l) {p : Ptr} (hp : p ∈ l) :
    OpSpec s (s.2.remove s.1 p) l (l.erase p) where
  rep := by
    obtain ⟨l₁, l₂, -, hl, herase⟩ := List.exists_erase_eq hp
    rw [herase]
    exact LevelRep.remove (hl ▸ hr)
  frame q hq _ := (remove_relinked hr hp).frame q hq
  removed q hq hq' := by
    have hqp : q = p := by
      by_contra hne
      exact hq' ((List.mem_erase_of_ne hne).2 hq)
    rw [hqp]
    exact remove_unlinked s.1 s.2 p

theorem opSpec_popFront (hr : LevelRep s.1 s.2 l) :
    OpSpec s (s.2.popFront s.1).2 l l.tail := by
  cases l with
  | nil =>
    have hpop : s.2.popFront s.1 = (none, s) := by
      have hhead : s.2.head = none := hr.front_eq
      simp [PriceLevel.popFront, hhead]
    rw [hpop]
    exact ⟨hr, fun _ _ _ => rfl, fun p hp => absurd hp List.not_mem_nil⟩
  | cons p l =>
    rw [popFront_eq_remove hr hr.front_eq]
    simpa using opSpec_remove hr (p := p) (by simp)

theorem LevelOp.apply_spec (hr : LevelRep s.1 s.2 l) {op : LevelOp} (hok : op.Allowed l) :
    OpSpec s (op.apply s) l (op.onList l) := by
  cases op with
  | pushBack p => exact opSpec_pushBack hr hok.1
  | remove p => exact opSpec_remove hr hok
  | popFront => exact opSpec_popFront hr

theorem LevelOp.onList_length {op : LevelOp} (hok : op.Allowed l) (hl : l.length < 2 ^ 32) :
    (op.onList l).length < 2 ^ 32 := by
  cases op with
  | pushBack p =>
    have hroom := hok.2
    simp only [onList, List.length_append, List.length_singleton]
    omega
  | remove p => exact (List.length_erase_le ..).trans_lt hl
  | popFront => simp only [onList, List.length_tail]; omega

end Step

/-! ## Runs -/

theorem levelRun_concat (h : Heap) (ops : List LevelOp) (op : LevelOp) :
    levelRun h (ops ++ [op]) = op.apply (levelRun h ops) := by
  simp [levelRun]

theorem listRun_concat (ops : List LevelOp) (op : LevelOp) :
    listRun (ops ++ [op]) = op.onList (listRun ops) := by
  simp [listRun]

theorem allowedRun_concat {l : List Ptr} {ops : List LevelOp} {op : LevelOp} :
    AllowedRun l (ops ++ [op]) ↔
      AllowedRun l ops ∧ op.Allowed (ops.foldl (fun l op => op.onList l) l) := by
  induction ops generalizing l with
  | nil => simp [AllowedRun]
  | cons op' ops ih => simp [AllowedRun, ih, and_assoc]

/-- Every run represents its list, whose length fits the count. -/
theorem levelRun_rep (h : Heap) {ops : List LevelOp} (hok : AllowedRun [] ops) :
    LevelRep (levelRun h ops).1 (levelRun h ops).2 (listRun ops) ∧
      (listRun ops).length < 2 ^ 32 := by
  induction ops using List.reverseRecOn with
  | nil => exact ⟨.new h, by simp [listRun]⟩
  | append_singleton ops op ih =>
    obtain ⟨hok, hop⟩ := allowedRun_concat.1 hok
    obtain ⟨hr, hlen⟩ := ih hok
    rw [levelRun_concat, listRun_concat]
    exact ⟨(LevelOp.apply_spec hr hop).rep, LevelOp.onList_length hop hlen⟩

theorem levelRun_concat_spec (h : Heap) {ops : List LevelOp} {op : LevelOp}
    (hok : AllowedRun [] (ops ++ [op])) :
    OpSpec (levelRun h ops) (levelRun h (ops ++ [op])) (listRun ops)
      (listRun (ops ++ [op])) := by
  obtain ⟨hok, hop⟩ := allowedRun_concat.1 hok
  rw [levelRun_concat, listRun_concat]
  exact LevelOp.apply_spec (levelRun_rep h hok).1 hop

/-- An order that was in the level and is not there any more has null links, however long ago
it left. -/
theorem levelRun_removed (h : Heap) {ops : List LevelOp} (hok : AllowedRun [] ops) {p : Ptr}
    (hp : .pushBack p ∈ ops) (hout : p ∉ listRun ops) : Unlinked (levelRun h ops).1 p := by
  induction ops using List.reverseRecOn with
  | nil => cases hp
  | append_singleton ops op ih =>
    have hspec := levelRun_concat_spec h hok
    by_cases hin : p ∈ listRun ops
    · exact hspec.removed p hin hout
    · have hne : op ≠ .pushBack p := by
        intro he
        apply hout
        simp [listRun_concat, he, LevelOp.onList]
      have hbefore : .pushBack p ∈ ops := by simpa [hne.symm] using hp
      have hnull := ih (allowedRun_concat.1 hok).1 hbefore hin
      unfold Unlinked Heap.order at hnull ⊢
      rwa [hspec.frame p hin hout]

theorem LevelRep.spells {h : Heap} {lv : PriceLevel} {l : List Ptr} (hr : LevelRep h lv l)
    (hlen : l.length < 2 ^ 32) : Spells (h, lv) l where
  forward := hr.links.chain
  backward := hr.links.chain_reverse
  head_null := by
    have hhead : lv.head = l.head? := hr.links.head
    simp [hhead]
  tail_null := by
    have htail : lv.tail = l.getLast? := hr.links.tail
    simp [htail]
  count := by
    show lv.orderCount.toNat = l.length
    rw [hr.count]
    exact UInt32.toNat_ofNat_of_lt' hlen

/-- After each operation the level spells out the list, orders that left it have null links,
the operation touched nothing outside, and `pop_front` is removal of the front. -/
theorem levelRun_refines_listRun (h : Heap) (ops : List LevelOp) (op : LevelOp)
    (hok : AllowedRun [] (ops ++ [op])) :
    Spells (levelRun h (ops ++ [op])) (listRun (ops ++ [op])) ∧
    (∀ p, .pushBack p ∈ ops ++ [op] → p ∉ listRun (ops ++ [op]) →
      Unlinked (levelRun h (ops ++ [op])).1 p) ∧
    (∀ q, q ∉ listRun ops → q ∉ listRun (ops ++ [op]) →
      (levelRun h (ops ++ [op])).1 q = (levelRun h ops).1 q) ∧
    (∀ p, (levelRun h ops).2.front = some p →
      (levelRun h ops).2.popFront (levelRun h ops).1 =
        (some p, (levelRun h ops).2.remove (levelRun h ops).1 p)) ∧
    ((levelRun h ops).2.front = none →
      (levelRun h ops).2.popFront (levelRun h ops).1 = (none, levelRun h ops)) := by
  obtain ⟨hr, hlen⟩ := levelRun_rep h hok
  obtain ⟨hr₀, -⟩ := levelRun_rep h (allowedRun_concat.1 hok).1
  refine ⟨hr.spells hlen, fun p => levelRun_removed h hok, (levelRun_concat_spec h hok).frame,
    fun p => popFront_eq_remove hr₀, fun hfront => ?_⟩
  have hhead : (levelRun h ops).2.head = none := hfront
  simp [PriceLevel.popFront, hhead]

/-- Three orders enter, the middle one leaves and comes back at the end. -/
def requeueMiddle : List LevelOp :=
  [.pushBack 1, .pushBack 2, .pushBack 3, .remove 2, .pushBack 2]

theorem levelRun_requeueMiddle :
    AllowedRun [] (requeueMiddle ++ [.popFront]) ∧
    Spells (levelRun (fun _ => .object {}) (requeueMiddle ++ [.popFront])) [3, 2] ∧
    Unlinked (levelRun (fun _ => .object {}) (requeueMiddle ++ [.popFront])).1 1 := by
  have hok : AllowedRun [] (requeueMiddle ++ [.popFront]) := by decide
  obtain ⟨hspells, hremoved, -⟩ :=
    levelRun_refines_listRun (fun _ => .object {}) requeueMiddle .popFront hok
  exact ⟨hok, hspells, hremoved 1 (by decide) (by decide)⟩

end LockfreeMatching
