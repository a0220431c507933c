import LockfreeMatching.Core.MemoryPool

/-!
# Price levels

A price level is a FIFO queue of orders threaded through `Order.prev` and `Order.next`,
with a 32-bit aggregate quantity and a 32-bit order count kept incrementally. The
functions follow the source statement by statement; memory is passed explicitly.

`LevelRep h lv l` says that in memory `h` the level `lv` holds exactly the orders `l`,
oldest first. Both counters are exact modulo `2 ^ 32`. The pointer surgery itself is
delegated to `Lib.Deque`; `Relinked` records what a level operation leaves alone.
-/
namespace LockfreeMatching

open Lib

/-- Memory seen by the order book: addresses of orders. -/
abbrev Heap := Ptr → Cell Order

namespace Heap

def order (h : Heap) (p : Ptr) : Order := (h p).value

def set (h : Heap) (p : Ptr) (o : Order) : Heap := Function.update h p (.object o)

def setPrev (h : Heap) (p : Ptr) (v : Option Ptr) : Heap := h.set p { h.order p with prev := v }

def setNext (h : Heap) (p : Ptr) (v : Option Ptr) : Heap := h.set p { h.order p with next := v }

/-- The cell at `p` holds an order, so that reading it is meaningful. -/
def Live (h : Heap) (p : Ptr) : Prop := ∃ o, h p = .object o

end Heap

structure PriceLevel where
  head : Option Ptr := none
  tail : Option Ptr := none
  totalQuantity : Quantity := 0
  orderCount : UInt32 := 0
  deriving DecidableEq

namespace PriceLevel

/-- Append to the back of the queue. -/
def pushBack (h : Heap) (lv : PriceLevel) (p : Ptr) : Heap × PriceLevel :=
  let h := h.setPrev p lv.tail
  let h := h.setNext p none
  let (h, head) := match lv.tail with
    | some t => (h.setNext t (some p), lv.head)
    | none => (h, some p)
  (h,
    { head
      tail := some p
      totalQuantity := lv.totalQuantity + (h.order p).remainingQuantity
      orderCount := lv.orderCount + 1 })

/-- Unlink an order anywhere in the queue. -/
def remove (h : Heap) (lv : PriceLevel) (p : Ptr) : Heap × PriceLevel :=
  let (h, lv) := match (h.order p).prev with
    | some y => (h.setNext y (h.order p).next, lv)
    | none => (h, { lv with head := (h.order p).next })
  let (h, lv) := match (h.order p).next with
    | some z => (h.setPrev z (h.order p).prev, lv)
    | none => (h, { lv with tail := (h.order p).prev })
  let h := h.setPrev p none
  let h := h.setNext p none
  (h,
    { lv with
      totalQuantity := lv.totalQuantity - (h.order p).remainingQuantity
      orderCount := lv.orderCount - 1 })

/-- Remove the oldest order and return it, or null if the level is empty. -/
def popFront (h : Heap) (lv : PriceLevel) : Option Ptr × Heap × PriceLevel :=
  match lv.head with
  | none => (none, h, lv)
  | some p =>
    let lv := { lv with head := (h.order p).next }
    let (h, lv) := match lv.head with
      | some z => (h.setPrev z none, lv)
      | none => (h, { lv with tail := none })
    let lv := { lv with
      totalQuantity := lv.totalQuantity - (h.order p).remainingQuantity
      orderCount := lv.orderCount - 1 }
    let h := h.setPrev p none
    let h := h.setNext p none
    (some p, h, lv)

/-- Keep the aggregate in step with a partial fill. -/
def reduceQuantity (lv : PriceLevel) (qty : Quantity) : PriceLevel :=
  { lv with totalQuantity := lv.totalQuantity - qty }

def front (lv : PriceLevel) : Option Ptr := lv.head

def empty (lv : PriceLevel) : Bool := lv.head.isNone

end PriceLevel

/-! ## What relinking preserves -/

@[simp] theorem Order.payload_prev (o : Order) (v : Option Ptr) :
    ({ o with prev := v } : Order).payload = o.payload := rfl

@[simp] theorem Order.payload_next (o : Order) (v : Option Ptr) :
    ({ o with next := v } : Order).payload = o.payload := rfl

@[simp] theorem Heap.set_order (h : Heap) (p q : Ptr) (o : Order) :
    (h.set p o).order q = if q = p then o else h.order q := by
  by_cases hq : q = p <;> simp [Heap.set, Heap.order, hq, Cell.value]

/-- `h'` differs from `h` only in link fields of orders in `S`. -/
structure Relinked (S : List Ptr) (h h' : Heap) : Prop where
  payload : ∀ q, (h'.order q).payload = (h.order q).payload
  frame : ∀ q, q ∉ S → h' q = h q
  live : ∀ q, h.Live q → h'.Live q

namespace Relinked

variable {S : List Ptr} {h h' : Heap}

theorem id (hrel : Relinked S h h') (q : Ptr) : (h'.order q).id = (h.order q).id :=
  (congrArg Order.id (hrel.payload q) :)

theorem side (hrel : Relinked S h h') (q : Ptr) : (h'.order q).side = (h.order q).side :=
  (congrArg Order.side (hrel.payload q) :)

theorem price (hrel : Relinked S h h') (q : Ptr) : (h'.order q).price = (h.order q).price :=
  (congrArg Order.price (hrel.payload q) :)

theorem remaining (hrel : Relinked S h h') (q : Ptr) :
    (h'.order q).remainingQuantity = (h.order q).remainingQuantity :=
  (congrArg Order.remainingQuantity (hrel.payload q) :)

end Relinked

theorem Relinked.refl (S : List Ptr) (h : Heap) : Relinked S h h :=
  ⟨fun _ => rfl, fun _ _ => rfl, fun _ hq => hq⟩

theorem Relinked.trans {S : List Ptr} {h h' h'' : Heap} (a : Relinked S h h')
    (b : Relinked S h' h'') : Relinked S h h'' :=
  ⟨fun q => (b.payload q).trans (a.payload q), fun q hq => (b.frame q hq).trans (a.frame q hq),
    fun q hq => b.live q (a.live q hq)⟩

theorem Relinked.set {S : List Ptr} (h : Heap) {p : Ptr} {o : Order} (hp : p ∈ S)
    (ho : o.payload = (h.order p).payload) : Relinked S h (h.set p o) where
  payload q := by
    by_cases hq : q = p
    · subst hq; simpa using ho
    · simp [hq]
  frame q hq := Function.update_of_ne (by rintro rfl; exact hq hp) _ _
  live q hq := by
    by_cases he : q = p
    · subst he; exact ⟨o, Function.update_self ..⟩
    · obtain ⟨x, hx⟩ := hq
      exact ⟨x, by rw [Heap.set, Function.update_of_ne he, hx]⟩

theorem Relinked.setPrev {S : List Ptr} (h : Heap) {p : Ptr} (v : Option Ptr) (hp : p ∈ S) :
    Relinked S h (h.setPrev p v) := .set h hp (by simp)

theorem Relinked.setNext {S : List Ptr} (h : Heap) {p : Ptr} (v : Option Ptr) (hp : p ∈ S) :
    Relinked S h (h.setNext p v) := .set h hp (by simp)

/-! ## Levels as linked lists -/

/-- The links and end pointers of a level. -/
def deque (h : Heap) (lv : PriceLevel) : Deque Ptr where
  prev p := (h.order p).prev
  next p := (h.order p).next
  head := lv.head
  tail := lv.tail

theorem prev_setPrev (h : Heap) (p : Ptr) (v : Option Ptr) :
    (fun q => ((h.setPrev p v).order q).prev) =
      Function.update (fun q => (h.order q).prev) p v := by
  funext q
  by_cases hq : q = p <;> simp [Heap.setPrev, hq]

theorem next_setPrev (h : Heap) (p : Ptr) (v : Option Ptr) :
    (fun q => ((h.setPrev p v).order q).next) = fun q => (h.order q).next := by
  funext q
  by_cases hq : q = p <;> simp [Heap.setPrev, hq]

theorem next_setNext (h : Heap) (p : Ptr) (v : Option Ptr) :
    (fun q => ((h.setNext p v).order q).next) =
      Function.update (fun q => (h.order q).next) p v := by
  funext q
  by_cases hq : q = p <;> simp [Heap.setNext, hq]

theorem prev_setNext (h : Heap) (p : Ptr) (v : Option Ptr) :
    (fun q => ((h.setNext p v).order q).prev) = fun q => (h.order q).prev := by
  funext q
  by_cases hq : q = p <;> simp [Heap.setNext, hq]

theorem deque_pushBack (h : Heap) (lv : PriceLevel) (p : Ptr) :
    deque (lv.pushBack h p).1 (lv.pushBack h p).2 = (deque h lv).pushBack p := by
  unfold PriceLevel.pushBack Deque.pushBack deque
  cases lv.tail with
  | none => simp only [prev_setNext, next_setNext, prev_setPrev, next_setPrev]
  | some t => simp only [prev_setNext, next_setNext, prev_setPrev, next_setPrev]

/-- First half of `remove`: the predecessor, or the head pointer, skips `p`. -/
def bypassNext (h : Heap) (lv : PriceLevel) (p : Ptr) : Heap × PriceLevel :=
  match (h.order p).prev with
  | some y => (h.setNext y (h.order p).next, lv)
  | none => (h, { lv with head := (h.order p).next })

/-- Second half of `remove`: the successor, or the tail pointer, skips `p`. -/
def bypassPrev (h : Heap) (lv : PriceLevel) (p : Ptr) : Heap × PriceLevel :=
  match (h.order p).next with
  | some z => (h.setPrev z (h.order p).prev, lv)
  | none => (h, { lv with tail := (h.order p).prev })

theorem deque_bypassNext (h : Heap) (lv : PriceLevel) (p : Ptr) :
    deque (bypassNext h lv p).1 (bypassNext h lv p).2 = (deque h lv).bypassForward p := by
  unfold bypassNext Deque.bypassForward deque
  cases hp : (h.order p).prev <;> simp only [hp, prev_setNext, next_setNext]

theorem deque_bypassPrev (h : Heap) (lv : PriceLevel) (p : Ptr) :
    deque (bypassPrev h lv p).1 (bypassPrev h lv p).2 = (deque h lv).bypassBackward p := by
  unfold bypassPrev Deque.bypassBackward deque
  cases hp : (h.order p).next <;> simp only [hp, prev_setPrev, next_setPrev]

theorem remove_eq (h : Heap) (lv : PriceLevel) (p : Ptr) :
    lv.remove h p =
      let a := bypassNext h lv p
      let b := bypassPrev a.1 a.2 p
      let h' := (b.1.setPrev p none).setNext p none
      (h', { b.2 with
        totalQuantity := b.2.totalQuantity - (h'.order p).remainingQuantity
        orderCount := b.2.orderCount - 1 }) := rfl

theorem deque_remove (h : Heap) (lv : PriceLevel) (p : Ptr) :
    deque (lv.remove h p).1 (lv.remove h p).2 = (deque h lv).unlink p := by
  rw [remove_eq, Deque.unlink, ← deque_bypassNext, ← deque_bypassPrev]
  simp only [deque, Deque.clear, prev_setNext, next_setNext, prev_setPrev, next_setPrev]

/-! ## Representation of a level -/

/-- Aggregate remaining quantity of a queue, as a natural number. -/
def sumRemaining (h : Heap) (l : List Ptr) : Nat :=
  (l.map fun p => (h.order p).remainingQuantity.toNat).sum

theorem sumRemaining_congr (h h' : Heap) (l : List Ptr)
    (heq : ∀ p ∈ l, (h'.order p).remainingQuantity = (h.order p).remainingQuantity) :
    sumRemaining h' l = sumRemaining h l := by
  unfold sumRemaining
  rw [List.map_congr_left fun p hp => by rw [heq p hp]]

/-- In memory `h` the level holds exactly the orders `l`, oldest first. -/
structure LevelRep (h : Heap) (lv : PriceLevel) (l : List Ptr) : Prop where
  links : (deque h lv).Represents l
  total : lv.totalQuantity = UInt32.ofNat (sumRemaining h l)
  count : lv.orderCount = UInt32.ofNat l.length

theorem LevelRep.empty_iff {h : Heap} {lv : PriceLevel} {l : List Ptr} (hr : LevelRep h lv l) :
    lv.empty = true ↔ l = [] := by
  have hh : lv.head = l.head? := hr.links.head
  simp [PriceLevel.empty, hh]

theorem LevelRep.front_eq {h : Heap} {lv : PriceLevel} {l : List Ptr} (hr : LevelRep h lv l) :
    lv.front = l.head? := hr.links.head

/-- A level survives any change of memory that keeps its links and remaining quantities. -/
theorem LevelRep.congr {h h' : Heap} {lv : PriceLevel} {l : List Ptr} (hr : LevelRep h lv l)
    (heq : ∀ p ∈ l, h'.order p = h.order p) : LevelRep h' lv l where
  links := hr.links.congr rfl rfl fun p hp => by simp [deque, heq p hp]
  total := by
    rw [hr.total, sumRemaining_congr h h' l fun p hp => by rw [heq p hp]]
  count := hr.count

theorem LevelRep.new (h : Heap) : LevelRep h {} [] where
  links := ⟨rfl, rfl, trivial, List.nodup_nil⟩
  total := rfl
  count := rfl

theorem pushBack_relinked {h : Heap} {lv : PriceLevel} {l : List Ptr} (hr : LevelRep h lv l)
    (p : Ptr) : Relinked (p :: l) h (lv.pushBack h p).1 := by
  have hbase : Relinked (p :: l) h ((h.setPrev p lv.tail).setNext p none) :=
    (Relinked.setPrev h _ (by simp)).trans (.setNext _ _ (by simp))
  unfold PriceLevel.pushBack
  cases ht : lv.tail with
  | none => simpa only [ht] using hbase
  | some t =>
    have htl : t ∈ l := List.mem_of_getLast? (hr.links.tail.symm.trans ht)
    simpa only [ht] using hbase.trans (.setNext _ _ (by simp [htl]))

theorem LevelRep.pushBack {h : Heap} {lv : PriceLevel} {l : List Ptr} (hr : LevelRep h lv l)
    {p : Ptr} (hp : p ∉ l) : LevelRep (lv.pushBack h p).1 (lv.pushBack h p).2 (l ++ [p]) where
  links := by
    rw [deque_pushBack]
    exact hr.links.pushBack hp
  total := by
    have hrel := pushBack_relinked hr p
    have hsum : sumRemaining (lv.pushBack h p).1 (l ++ [p]) =
        sumRemaining h l + ((lv.pushBack h p).1.order p).remainingQuantity.toNat := by
      rw [← sumRemaining_congr h (lv.pushBack h p).1 l
        fun q _ => hrel.remaining q]
      simp [sumRemaining]
    rw [hsum, UInt32.ofNat_add, ← hr.total, UInt32.ofNat_toNat]
    unfold PriceLevel.pushBack
    cases lv.tail <;> rfl
  count := by
    rw [List.length_append, List.length_singleton, UInt32.ofNat_add, ← hr.count]
    rfl

theorem remove_relinked {h : Heap} {lv : PriceLevel} {l : List Ptr} (hr : LevelRep h lv l)
    {p : Ptr} (hp : p ∈ l) : Relinked l h (lv.remove h p).1 := by
  obtain ⟨l₁, l₂, rfl⟩ := List.append_of_mem hp
  obtain ⟨hprev, hnext⟩ := hr.links.links
  have hprev' : (h.order p).prev = l₁.getLast? := hprev
  have ha : Relinked (l₁ ++ p :: l₂) h (bypassNext h lv p).1 := by
    unfold bypassNext
    rw [hprev']
    cases hy : l₁.getLast? with
    | none => exact .refl _ _
    | some y => exact .setNext _ _ (by simp [List.mem_of_getLast? hy])
  have hnext' : ((bypassNext h lv p).1.order p).next = l₂.head? := by
    have hself : l₁.getLast? ≠ some p := hprev' ▸ hr.links.prev_ne
    unfold bypassNext
    rw [hprev']
    cases hy : l₁.getLast? with
    | none => exact hnext
    | some y =>
      have hpy : p ≠ y := by rintro rfl; exact hself hy
      simpa [Heap.setNext, hpy, deque] using hnext
  have hb : Relinked (l₁ ++ p :: l₂) h
      (bypassPrev (bypassNext h lv p).1 (bypassNext h lv p).2 p).1 := by
    refine ha.trans ?_
    unfold bypassPrev
    rw [hnext']
    cases hz : l₂.head? with
    | none => exact .refl _ _
    | some z => exact .setPrev _ _ (by simp [List.mem_of_head? hz])
  rw [remove_eq]
  exact (hb.trans (.setPrev _ _ (by simp))).trans (.setNext _ _ (by simp))

theorem LevelRep.remove {h : Heap} {lv : PriceLevel} {l₁ l₂ : List Ptr} {p : Ptr}
    (hr : LevelRep h lv (l₁ ++ p :: l₂)) :
    LevelRep (lv.remove h p).1 (lv.remove h p).2 (l₁ ++ l₂) := by
  have hrel := remove_relinked hr (p := p) (by simp)
  have htotal : (lv.remove h p).2.totalQuantity =
      lv.totalQuantity - ((lv.remove h p).1.order p).remainingQuantity := by
    rw [remove_eq]
    unfold bypassPrev bypassNext
    cases (h.order p).prev <;> dsimp only <;> split <;> rfl
  have hcount : (lv.remove h p).2.orderCount = lv.orderCount - 1 := by
    rw [remove_eq]
    unfold bypassPrev bypassNext
    cases (h.order p).prev <;> dsimp only <;> split <;> rfl
  refine ⟨?_, ?_, ?_⟩
  · rw [deque_remove]
    exact hr.links.unlink
  · have hsum : sumRemaining h (l₁ ++ p :: l₂) =
        sumRemaining (lv.remove h p).1 (l₁ ++ l₂) +
          ((lv.remove h p).1.order p).remainingQuantity.toNat := by
      rw [← sumRemaining_congr h (lv.remove h p).1 (l₁ ++ p :: l₂)
        fun q _ => hrel.remaining q]
      simp only [sumRemaining, List.map_append, List.map_cons, List.sum_append, List.sum_cons]
      omega
    rw [htotal, hr.total, hsum, UInt32.ofNat_add, UInt32.ofNat_toNat, UInt32.add_sub_cancel]
  · have hlen : (l₁ ++ p :: l₂).length = (l₁ ++ l₂).length + 1 := by simp; omega
    rw [hcount, hr.count, hlen, UInt32.ofNat_add]
    exact UInt32.add_sub_cancel _ _

theorem remove_unlinked (h : Heap) (lv : PriceLevel) (p : Ptr) :
    ((lv.remove h p).1.order p).prev = none ∧ ((lv.remove h p).1.order p).next = none := by
  simp [remove_eq, Heap.setNext, Heap.setPrev]

/-- The shorter removal path has the effect of the general one. -/
theorem popFront_eq_remove {h : Heap} {lv : PriceLevel} {l : List Ptr} (hr : LevelRep h lv l)
    {p : Ptr} (hp : lv.front = some p) : lv.popFront h = (some p, lv.remove h p) := by
  have hhead : l.head? = some p := hr.front_eq.symm.trans hp
  obtain ⟨l₂, rfl⟩ := List.head?_eq_some_iff.1 hhead
  obtain ⟨hprev, hlinked⟩ : (h.order p).prev = none ∧ (h.order p).next = l₂.head? :=
    Deque.Represents.links (show (deque h lv).Represents ([] ++ p :: l₂) from hr.links)
  have hlv : lv.head = some p := hp
  unfold PriceLevel.popFront PriceLevel.remove
  cases hnext : (h.order p).next with
  | none => simp [hlv, hprev, hnext, Heap.setNext, Heap.setPrev, Order.remainingQuantity]
  | some z =>
    have hz : l₂.head? = some z := hlinked.symm.trans hnext
    have hpz : p ≠ z := by
      intro he
      exact (List.nodup_cons.1 hr.links.nodup).1 (List.mem_of_head? (he ▸ hz))
    simp [hlv, hprev, hnext, hpz, Heap.setNext, Heap.setPrev, Order.remainingQuantity]

/-- A fill moves `qty` from the remaining quantity of an order to the level's deduction. -/
theorem LevelRep.fill {h : Heap} {lv : PriceLevel} {l : List Ptr} {p : Ptr} {o : Order}
    {qty : Quantity} (hr : LevelRep h lv l) (hp : p ∈ l)
    (hprev : o.prev = (h.order p).prev) (hnext : o.next = (h.order p).next)
    (hrem : (h.order p).remainingQuantity.toNat = o.remainingQuantity.toNat + qty.toNat) :
    LevelRep (h.set p o) (lv.reduceQuantity qty) l := by
  refine ⟨hr.links.congr rfl rfl fun q _ => ?_, ?_, hr.count⟩
  · by_cases hq : q = p
    · subst hq; simp [deque, hprev, hnext]
    · simp [deque, hq]
  · obtain ⟨l₁, l₂, rfl⟩ := List.append_of_mem hp
    obtain ⟨hp', -⟩ := List.nodup_cons.1 (List.nodup_middle.1 hr.links.nodup)
    have hsum : sumRemaining h (l₁ ++ p :: l₂) =
        sumRemaining (h.set p o) (l₁ ++ p :: l₂) + qty.toNat := by
      have hother : ∀ q ∈ l₁ ++ l₂, (h.set p o).order q = h.order q := by
        intro q hq
        have : q ≠ p := by rintro rfl; exact hp' hq
        simp [this]
      have h₁ := sumRemaining_congr h (h.set p o) l₁
        fun q hq => by rw [hother q (by simp [hq])]
      have h₂ := sumRemaining_congr h (h.set p o) l₂
        fun q hq => by rw [hother q (by simp [hq])]
      simp only [sumRemaining, List.map_append, List.map_cons, List.sum_append, List.sum_cons,
        Heap.set_order, if_true] at h₁ h₂ ⊢
      omega
    rw [PriceLevel.reduceQuantity, hr.total, hsum, UInt32.ofNat_add, UInt32.ofNat_toNat,
      UInt32.add_sub_cancel]

end LockfreeMatching
