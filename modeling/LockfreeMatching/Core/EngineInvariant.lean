import LockfreeMatching.Core.MatchingEngine
import LockfreeMatching.Core.BookRun

/-!
# Engine invariant

`EngineRep e q free` is what holds of engine memory even in the middle of a fill: the book
represents the queues `q`, its best prices are exact, it is uncrossed, and the pool slots
are split between the free list and the resting orders. `Open e q` adds that no resting
order is completely filled; it fails only between updating a fill and unlinking the order.

Slots move between the free list and the book by `EngineRep.release` (cancel or complete
fill) and `EngineRep.rest`; a partial fill touches neither.
-/
namespace LockfreeMatching

open Lib

/-! ## Filling an order in place -/

section Fill

variable {h : Heap} {b : OrderBook} {q : Int → List Ptr} {p : Int} {x : Ptr} {o : Order}
  {qty : Quantity}

/-- The book after an order's fill state was written and its level's aggregate reduced. -/
def reduceLevel (b : OrderBook) (p : Int) (qty : Quantity) : OrderBook :=
  { b with levels := Function.update b.levels p ((b.levels p).reduceQuantity qty) }

/-- Writing an order leaves every field alone that it does not change. -/
theorem set_order_field {A : Type} (f : Order → A) (hf : f o = f (h.order x)) (y : Ptr) :
    f ((h.set x o).order y) = f (h.order y) := by
  by_cases hy : y = x
  · subst hy
    simpa using hf
  · simp [hy]

/-- An order with `qty` more executed. -/
def executed (o : Order) (qty : Quantity) : Order :=
  { o with filledQuantity := o.filledQuantity + qty }

/-- `o` is the order at `x` after executing `qty` of it. -/
structure FilledBy (h : Heap) (x : Ptr) (o : Order) (qty : Quantity) : Prop where
  id : o.id = (h.order x).id
  side : o.side = (h.order x).side
  price : o.price = (h.order x).price
  prev : o.prev = (h.order x).prev
  next : o.next = (h.order x).next
  remaining : (h.order x).remainingQuantity.toNat = o.remainingQuantity.toNat + qty.toNat

/-- Executing no more than what remains does not wrap. -/
theorem executed_toNat {o : Order} (hopen : o.filledQuantity < o.quantity)
    (hqty : qty ≤ o.remainingQuantity) :
    o.remainingQuantity.toNat = o.quantity.toNat - o.filledQuantity.toNat ∧
      (executed o qty).filledQuantity.toNat = o.filledQuantity.toNat + qty.toNat ∧
      o.filledQuantity.toNat + qty.toNat ≤ o.quantity.toNat := by
  have hq := UInt32.le_iff_toNat_le.1 hqty
  have hf := UInt32.lt_iff_toNat_lt.1 hopen
  have hrem : o.remainingQuantity.toNat = o.quantity.toNat - o.filledQuantity.toNat :=
    UInt32.toNat_sub_of_le _ _ (UInt32.le_of_lt hopen)
  have htotal := o.quantity.toNat_lt
  rw [hrem] at hq
  refine ⟨hrem, ?_, by omega⟩
  simp only [executed, UInt32.toNat_add]
  omega

theorem FilledBy.executed (h : Heap) {x : Ptr} {qty : Quantity}
    (hopen : (h.order x).filledQuantity < (h.order x).quantity)
    (hqty : qty ≤ (h.order x).remainingQuantity) :
    FilledBy h x (executed (h.order x) qty) qty := by
  refine ⟨rfl, rfl, rfl, rfl, rfl, ?_⟩
  obtain ⟨hrem, hfill, hle⟩ := executed_toNat hopen hqty
  have hrem' : (LockfreeMatching.executed (h.order x) qty).remainingQuantity.toNat =
      (h.order x).quantity.toNat -
        (LockfreeMatching.executed (h.order x) qty).filledQuantity.toNat :=
    UInt32.toNat_sub_of_le _ _ (by rw [UInt32.le_iff_toNat_le, hfill]; exact hle)
  rw [hrem, hrem', hfill]
  omega

/-- An execution fills an order completely iff it takes all that remains. -/
theorem executed_isFilled {o : Order} (hopen : o.filledQuantity < o.quantity)
    (hqty : qty ≤ o.remainingQuantity) :
    (executed o qty).isFilled = true ↔ o.remainingQuantity ≤ qty := by
  obtain ⟨hrem, hfill, hle⟩ := executed_toNat hopen hqty
  have hq := UInt32.le_iff_toNat_le.1 hqty
  rw [Order.isFilled, decide_eq_true_eq, UInt32.le_iff_toNat_le, UInt32.le_iff_toNat_le, hrem,
    hfill]
  simp only [executed]
  omega

theorem BookRep.fill (hr : BookRep h b q) (hx : x ∈ q p) (ho : FilledBy h x o qty) :
    BookRep (h.set x o) (reduceLevel b p qty) q := by
  refine ⟨?_, ?_, ?_, hr.range, ?_, ?_⟩
  · intro r
    by_cases he : r = p
    · subst he
      simp only [reduceLevel, Function.update_self]
      exact (hr.level r).fill hx ho.prev ho.next ho.remaining
    · simp only [reduceLevel, Function.update_of_ne he]
      refine (hr.level r).congr fun y hy => ?_
      have : y ≠ x := by
        rintro rfl
        exact he ((hr.price r y hy).symm.trans (hr.price p y hx))
      simp [this]
  · intro r y hy
    by_cases he : y = x
    · subst he; exact ⟨o, Function.update_self ..⟩
    · obtain ⟨z, hz⟩ := hr.live r y hy
      exact ⟨z, by rw [Heap.set, Function.update_of_ne he, hz]⟩
  · intro r y hy
    rw [set_order_field Order.price ho.price]
    exact hr.price r y hy
  · intro id y
    rw [set_order_field Order.price ho.price, set_order_field Order.id ho.id]
    exact hr.map id y
  · intro s
    have : resting (h.set x o) q s = resting h q s := by
      simp only [resting, set_order_field Order.price ho.price, set_order_field Order.side ho.side]
    rw [this, ← hr.count s]
    cases s <;> rfl

theorem sidePrices_fill (ho : FilledBy h x o qty) (s : Side) :
    sidePrices (h.set x o) q s = sidePrices h q s := by
  simp only [sidePrices, set_order_field Order.side ho.side]

theorem BestExact.fill (hb : BestExact h b q) (ho : FilledBy h x o qty) :
    BestExact (h.set x o) (reduceLevel b p qty) q :=
  ⟨by rw [sidePrices_fill ho]; exact hb.bid, by rw [sidePrices_fill ho]; exact hb.ask⟩

theorem Uncrossed.fill (hu : Uncrossed h q) (ho : FilledBy h x o qty) :
    Uncrossed (h.set x o) q := by
  simp only [Uncrossed, sidePrices_fill ho]
  exact hu

end Fill

/-! ## Engine memory -/

structure EngineRep (e : MatchingEngine) (q : Int → List Ptr) (free : List Ptr) : Prop where
  rep : BookRep e.heap e.book q
  best : BestExact e.heap e.book q
  uncrossed : Uncrossed e.heap q
  pool : e.pool.FreeList free
  disjoint : ∀ p, ∀ x ∈ q p, x ∉ free
  slots : ∀ x, (x ∈ free ∨ ∃ p, x ∈ q p) ↔ ∃ i < orderPoolSize, x = slotPtr i

/-- Every resting order is a limit order with quantity left. -/
def Open (e : MatchingEngine) (q : Int → List Ptr) : Prop :=
  ∀ p, ∀ x ∈ q p, (e.heap.order x).type = .limit ∧
    (e.heap.order x).filledQuantity < (e.heap.order x).quantity

structure EngineInv (e : MatchingEngine) (q : Int → List Ptr) (free : List Ptr) : Prop
    extends EngineRep e q free where
  isOpen : Open e q

theorem EngineInv.new : EngineInv .new (fun _ => []) ((List.range orderPoolSize).map slotPtr) where
  rep := .new _
  best := .new _
  uncrossed := by rintro p ⟨x, hx, -⟩; cases hx
  pool := MemoryPool.FreeList.new _ (by rw [orderPoolSize_eq]; decide)
  disjoint := by simp
  slots x := by
    simp only [List.mem_map, List.mem_range, List.not_mem_nil, exists_false, or_false]
    exact exists_congr fun i => and_congr_right fun _ => eq_comm
  isOpen := by intro p x hx; cases hx

namespace EngineRep

variable {e : MatchingEngine} {q : Int → List Ptr} {free : List Ptr}

/-- Fills are output only: the invariant does not mention them. -/
theorem withFills (he : EngineRep e q free) (fills : List Fill) :
    EngineRep { e with fills } q free :=
  ⟨he.rep, he.best, he.uncrossed, he.pool, he.disjoint, he.slots⟩

theorem linked (he : EngineRep e q free) {id : OrderId} {x : Ptr}
    (hm : e.book.orderMap id = some x) : x ∈ q (e.heap.order x).price :=
  ((he.rep.map id x).1 hm).1

theorem cancelling (he : EngineRep e q free) {id : OrderId} {x : Ptr}
    (hm : e.book.orderMap id = some x) : Cancelling e.heap e.book q id x :=
  ⟨he.rep, he.best, he.uncrossed, hm⟩

/-- Cancel an order and give its slot back. -/
def releaseOrder (e : MatchingEngine) (id : OrderId) (x : Ptr) : MatchingEngine :=
  { e with
    book := (e.book.cancelOrder e.heap id).2.1
    pool := MemoryPool.deallocate
      { e.pool with storage := (e.book.cancelOrder e.heap id).1 } x }

theorem releaseOrder_heap (e : MatchingEngine) (id : OrderId) (x y : Ptr) (hy : y ≠ x) :
    (releaseOrder e id x).heap y = (e.book.cancelOrder e.heap id).1 y :=
  Function.update_of_ne hy _ _

/-- The slot goes to the free list only after it left the level, the map and the counters. -/
theorem release (he : EngineRep e q free) {id : OrderId} {x : Ptr}
    (hm : e.book.orderMap id = some x) :
    EngineRep (releaseOrder e id x) (eraseQueue q (e.heap.order x).price x) (x :: free) := by
  have hx := he.linked hm
  have hc := he.cancelling hm
  have hrel := he.rep.cancelOrder_relinked hm
  have hkeep : ∀ p, ∀ y ∈ eraseQueue q (e.heap.order x).price x p,
      (releaseOrder e id x).heap y = (e.book.cancelOrder e.heap id).1 y := by
    intro p y hy
    exact releaseOrder_heap e id x y (he.rep.mem_eraseQueue.1 hy).2
  have hside : ∀ p, ∀ y ∈ eraseQueue q (e.heap.order x).price x p,
      ((releaseOrder e id x).heap.order y).side =
        (Heap.order (e.book.cancelOrder e.heap id).1 y).side := by
    intro p y hy
    rw [Heap.order, hkeep p y hy, Heap.order]
  have hsets : ∀ s, sidePrices (releaseOrder e id x).heap
      (eraseQueue q (e.heap.order x).price x) s = sidePrices (e.book.cancelOrder e.heap id).1
      (eraseQueue q (e.heap.order x).price x) s := by
    intro s
    ext r
    exact exists_congr fun y => and_congr_right fun hy => by rw [hside r y hy]
  have hxfree : x ∉ free := he.disjoint _ x hx
  refine ⟨(he.rep.cancelOrder hm).congr hkeep, hc.bestExact.congr hside, ?_, ?_, ?_, ?_⟩
  · simp only [Uncrossed, hsets]
    exact hc.uncrossed_after
  · refine MemoryPool.FreeList.deallocate ⟨?_, he.pool.available⟩ hxfree
    refine he.pool.threaded.congr fun y hy => hrel.frame y fun hy' => ?_
    exact he.disjoint _ y hy' hy
  · intro p y hy
    obtain ⟨hy, hne⟩ := he.rep.mem_eraseQueue.1 hy
    simp only [List.mem_cons, not_or]
    exact ⟨hne, he.disjoint p y hy⟩
  · intro y
    rw [← he.slots y]
    simp only [List.mem_cons, he.rep.mem_eraseQueue]
    constructor
    · rintro ((rfl | hy) | ⟨p, hy, -⟩)
      exacts [.inr ⟨_, hx⟩, .inl hy, .inr ⟨p, hy⟩]
    · rintro (hy | ⟨p, hy⟩)
      · exact .inl (.inr hy)
      · by_cases hyx : y = x
        exacts [.inl (.inl hyx), .inr ⟨p, hy, hyx⟩]

/-- Orders other than the released one keep everything but their links. -/
theorem release_payload (he : EngineRep e q free) {id : OrderId} {x y : Ptr}
    (hm : e.book.orderMap id = some x) (hy : y ≠ x) :
    ((releaseOrder e id x).heap.order y).payload = (e.heap.order y).payload := by
  have hrel := he.rep.cancelOrder_relinked hm
  rw [Heap.order, releaseOrder_heap e id x y hy]
  exact hrel.payload y

/-- Execute `qty` of the order at `x`, linked at price `p`, in place. -/
def fillOrder (e : MatchingEngine) (p : Int) (x : Ptr) (qty : Quantity) : MatchingEngine :=
  { e with
    book := reduceLevel e.book p qty
    pool := { e.pool with storage := e.heap.set x (executed (e.heap.order x) qty) } }

theorem fill (he : EngineRep e q free) {p : Int} {x : Ptr} {qty : Quantity} (hx : x ∈ q p)
    (ho : FilledBy e.heap x (executed (e.heap.order x) qty) qty) :
    EngineRep (fillOrder e p x qty) q free := by
  refine ⟨he.rep.fill hx ho, he.best.fill ho, he.uncrossed.fill ho, ?_, he.disjoint, he.slots⟩
  refine ⟨he.pool.threaded.congr fun y hy => ?_, he.pool.available⟩
  exact Function.update_of_ne (by rintro rfl; exact he.disjoint p y hx hy) _ _

/-- Every slot is either free or holds exactly one resting order. -/
theorem slot_count (he : EngineRep e q free) :
    free.length + (e.book.count .bid).toNat + (e.book.count .ask).toNat = orderPoolSize := by
  have hfree : ({x | x ∈ free} : Set Ptr).ncard = free.length := by
    rw [← List.toFinset_card_of_nodup he.pool.threaded.nodup, ← Set.ncard_coe_finset]
    congr 1
    ext x
    simp
  have hslots : ({x | ∃ i < orderPoolSize, x = slotPtr i} : Set Ptr).ncard = orderPoolSize := by
    have himage : ({x | ∃ i < orderPoolSize, x = slotPtr i} : Set Ptr) =
        slotPtr '' (Finset.range orderPoolSize : Set Nat) := by
      ext x
      simp only [Set.mem_ofPred_eq, Set.mem_image, Finset.coe_range, Set.mem_Iio]
      exact exists_congr fun i => and_congr_right fun _ => eq_comm
    have hinj : Set.InjOn slotPtr (Finset.range orderPoolSize : Set Nat) := by
      intro i hi j hj
      simp only [Finset.coe_range, Set.mem_Iio, orderPoolSize_eq] at hi hj
      exact slotPtr_inj (by omega) (by omega)
    rw [himage, hinj.ncard_image, Set.ncard_coe_finset, Finset.card_range]
  have hunion : ({x | ∃ i < orderPoolSize, x = slotPtr i} : Set Ptr) =
      {x | x ∈ free} ∪ (resting e.heap q .bid ∪ resting e.heap q .ask) := by
    ext x
    simp only [Set.mem_ofPred_eq, Set.mem_union, resting, ← he.slots x]
    refine or_congr_right ⟨?_, ?_⟩
    · rintro ⟨p, hx⟩
      have hx' := (he.rep.mem_iff.1 hx).1
      cases hs : (e.heap.order x).side
      exacts [.inl ⟨hx', rfl⟩, .inr ⟨hx', rfl⟩]
    · rintro (⟨hx, -⟩ | ⟨hx, -⟩) <;> exact ⟨_, hx⟩
  have hsides : Disjoint (resting e.heap q .bid) (resting e.heap q .ask) := by
    rw [Set.disjoint_left]
    rintro x ⟨-, hb⟩ ⟨-, ha⟩
    rw [hb] at ha
    cases ha
  have hboth : Disjoint {x | x ∈ free} (resting e.heap q .bid ∪ resting e.heap q .ask) := by
    rw [Set.disjoint_left]
    rintro x hx (⟨hx', -⟩ | ⟨hx', -⟩) <;> exact he.disjoint _ x hx' hx
  rw [he.rep.count, he.rep.count, ← hslots, hunion, Set.ncard_union_eq hboth,
    Set.ncard_union_eq hsides, hfree]
  omega

end EngineRep

/-! ## Editing resting orders -/

/-- What a step does to the resting orders: `f` maps each to its new contents, or to `none`
if it leaves the book. The order of every queue is kept. -/
structure Edited (h : Heap) (q : Int → List Ptr) (h' : Heap) (q' : Int → List Ptr)
    (f : Ptr → Option Order) : Prop where
  queue : ∀ p, q' p = (q p).filter fun y => (f y).isSome
  payload : ∀ p, ∀ y ∈ q p, ∀ o, f y = some o → (h'.order y).payload = o.payload

theorem Edited.mem {h h' : Heap} {q q' : Int → List Ptr} {f : Ptr → Option Order}
    (hed : Edited h q h' q' f) {p : Int} {y : Ptr} (hy : y ∈ q' p) :
    y ∈ q p ∧ ∃ o, f y = some o ∧ (h'.order y).payload = o.payload := by
  rw [hed.queue p, List.mem_filter] at hy
  obtain ⟨o, ho⟩ := Option.isSome_iff_exists.1 hy.2
  exact ⟨hy.1, o, ho, hed.payload p y hy.1 o ho⟩

/-- Being open is a property of the payloads. -/
theorem isOpen_of_payload {e : MatchingEngine} {q : Int → List Ptr}
    (h : ∀ p, ∀ y ∈ q p, ∃ o : Order, (e.heap.order y).payload = o.payload ∧
      o.type = .limit ∧ o.filledQuantity < o.quantity) : Open e q := by
  intro p y hy
  obtain ⟨o, hpay, hopen⟩ := h p y hy
  have htype : (e.heap.order y).type = o.type := (congrArg Order.type hpay :)
  have hfill : (e.heap.order y).filledQuantity = o.filledQuantity :=
    (congrArg Order.filledQuantity hpay :)
  have hquant : (e.heap.order y).quantity = o.quantity := (congrArg Order.quantity hpay :)
  rw [htype, hfill, hquant]
  exact hopen

/-- Resting orders stay open if the edit keeps them so. -/
theorem Edited.isOpen {e e' : MatchingEngine} {q q' : Int → List Ptr} {f : Ptr → Option Order}
    (hed : Edited e.heap q e'.heap q' f)
    (hf : ∀ p, ∀ y ∈ q p, ∀ o, f y = some o → o.type = .limit ∧ o.filledQuantity < o.quantity) :
    Open e' q' := by
  refine isOpen_of_payload fun p y hy => ?_
  obtain ⟨hy, o, ho, hpay⟩ := hed.mem hy
  exact ⟨o, hpay, hf p y hy o ho⟩

theorem BookRep.eraseQueue_eq_filter {h : Heap} {b : OrderBook} {q : Int → List Ptr}
    (hr : BookRep h b q) (x : Ptr) (p : Int) :
    eraseQueue q (h.order x).price x p = (q p).filter (· ≠ x) := by
  by_cases hp : p = (h.order x).price
  · subst hp
    rw [eraseQueue, Function.update_self, (hr.nodup _).erase_eq_filter]
    congr 1
    funext y
    simp [bne, beq_eq_decide]
  · rw [eraseQueue, Function.update_of_ne hp, eq_comm, List.filter_eq_self]
    intro y hy
    rw [decide_eq_true_eq]
    rintro rfl
    exact hp (hr.price p y hy).symm

namespace EngineInv

variable {e : MatchingEngine} {q : Int → List Ptr} {free : List Ptr} {x : Ptr}

theorem withFills (he : EngineInv e q free) (fills : List Fill) :
    EngineInv { e with fills } q free := ⟨he.toEngineRep.withFills fills, he.isOpen⟩

/-- A cancelled order disappears and nothing else changes. -/
def cancelEdit (h : Heap) (x : Ptr) (y : Ptr) : Option Order :=
  if y = x then none else some (h.order y)

theorem release_edited (he : EngineRep e q free) {id : OrderId} {x : Ptr}
    (hm : e.book.orderMap id = some x) :
    Edited e.heap q (EngineRep.releaseOrder e id x).heap
      (eraseQueue q (e.heap.order x).price x) (cancelEdit e.heap x) := by
  refine ⟨fun p => ?_, fun p y _ o ho => ?_⟩
  · rw [he.rep.eraseQueue_eq_filter]
    congr 1
    funext y
    by_cases hy : y = x <;> simp [cancelEdit, hy]
  · unfold cancelEdit at ho
    split_ifs at ho with hy
    obtain rfl := Option.some.inj ho
    exact he.release_payload hm hy

theorem release (he : EngineInv e q free) {id : OrderId} {x : Ptr}
    (hm : e.book.orderMap id = some x) :
    EngineInv (EngineRep.releaseOrder e id x) (eraseQueue q (e.heap.order x).price x)
      (x :: free) := by
  refine ⟨he.toEngineRep.release hm, (release_edited he.toEngineRep hm).isOpen ?_⟩
  intro p y hy o ho
  unfold cancelEdit at ho
  split_ifs at ho
  obtain rfl := Option.some.inj ho
  exact he.isOpen p y hy

/-! ### Executing against the front of a level -/

/-- An executed order leaves if that fills it completely, and stays in place otherwise. -/
def fillEdit (h : Heap) (x : Ptr) (qty : Quantity) (y : Ptr) : Option Order :=
  if y = x then
    if (executed (h.order x) qty).isFilled then none else some (executed (h.order x) qty)
  else some (h.order y)

/-- The fill generated by executing against the order at `x`. -/
def fillAgainst (e : MatchingEngine) (p : Int) (id : OrderId) (side : Side) (ts : Timestamp)
    (x : Ptr) (qty : Quantity) : Fill where
  aggressiveId := id
  passiveId := (e.heap.order x).id
  price := p
  quantity := qty
  timestamp := ts
  aggressorSide := side

/-- Execute `qty` of the order at `x` and unlink it if that fills it completely. -/
def executeOrder (e : MatchingEngine) (p : Int) (x : Ptr) (qty : Quantity) : MatchingEngine :=
  if (executed (e.heap.order x) qty).isFilled then
    EngineRep.releaseOrder (EngineRep.fillOrder e p x qty) (e.heap.order x).id x
  else EngineRep.fillOrder e p x qty

theorem fillFront_eq {p : Int} {id : OrderId} {side : Side} {ts : Timestamp} {rem : Quantity}
    {x : Ptr} (hx : (e.book.levels p).front = some x) :
    MatchingEngine.fillFront p id side ts (e, rem) =
      let qty := min rem (e.heap.order x).remainingQuantity
      let e' := { e with fills := e.fills ++ [fillAgainst e p id side ts x qty] }
      some (executeOrder e' p x qty, rem - qty) := by
  have hif : ∀ (c : Prop) [Decidable c] (a b : MatchingEngine) (r : Quantity),
      (if c then (a, r) else (b, r)) = (if c then a else b, r) := by
    intro c _ a b r
    split <;> rfl
  simp only [MatchingEngine.fillFront, hx, Option.map_some]
  exact congrArg some (hif _ _ _ _)

theorem fillOrder_edited (e : MatchingEngine) (q : Int → List Ptr) (p : Int) {x : Ptr}
    {qty : Quantity} (hopen : (executed (e.heap.order x) qty).isFilled = false) :
    Edited e.heap q (EngineRep.fillOrder e p x qty).heap q (fillEdit e.heap x qty) := by
  refine ⟨fun r => ?_, fun r y _ o ho => ?_⟩
  · rw [eq_comm, List.filter_eq_self]
    intro y _
    by_cases hy : y = x <;> simp [fillEdit, hy, hopen]
  · by_cases hy : y = x
    · subst hy
      simp only [fillEdit, if_true, hopen, Bool.false_eq_true, if_false] at ho
      obtain rfl := Option.some.inj ho
      simp [EngineRep.fillOrder, MatchingEngine.heap]
    · simp only [fillEdit, hy, if_false] at ho
      obtain rfl := Option.some.inj ho
      simp [EngineRep.fillOrder, MatchingEngine.heap, hy]

theorem fillOrder_lookup (he : EngineRep e q free) {p : Int} {x : Ptr} {qty : Quantity}
    (hx : x ∈ q p) (ho : FilledBy e.heap x (executed (e.heap.order x) qty) qty) :
    ((EngineRep.fillOrder e p x qty).heap.order x).price = p ∧
      (EngineRep.fillOrder e p x qty).book.orderMap (e.heap.order x).id = some x := by
  have hfill := he.fill hx ho
  have hself : ((EngineRep.fillOrder e p x qty).heap.order x) =
      executed (e.heap.order x) qty := by
    simp [EngineRep.fillOrder, MatchingEngine.heap]
  have hprice : ((EngineRep.fillOrder e p x qty).heap.order x).price = p :=
    hfill.rep.price p x hx
  refine ⟨hprice, ?_⟩
  rw [hfill.rep.map, hprice, hself]
  exact ⟨hx, rfl⟩

/-- Filling and then unlinking an order is one edit: it disappears. -/
theorem fill_release_edited (he : EngineRep e q free) {p : Int} {x : Ptr} {qty : Quantity}
    (hx : x ∈ q p) (ho : FilledBy e.heap x (executed (e.heap.order x) qty) qty)
    (hfull : (executed (e.heap.order x) qty).isFilled = true) :
    Edited e.heap q
      (EngineRep.releaseOrder (EngineRep.fillOrder e p x qty) (e.heap.order x).id x).heap
      (eraseQueue q p x) (fillEdit e.heap x qty) := by
  obtain ⟨hprice, hm⟩ := fillOrder_lookup he hx ho
  have hrel := release_edited (he.fill hx ho) hm
  rw [hprice] at hrel
  refine ⟨fun r => ?_, fun r y hy o hoy => ?_⟩
  · rw [hrel.queue r]
    congr 1
    funext y
    by_cases hy : y = x <;> simp [cancelEdit, fillEdit, hy, hfull]
  · by_cases hyx : y = x
    · simp [fillEdit, hyx, hfull] at hoy
    · simp only [fillEdit, hyx, if_false] at hoy
      obtain rfl := Option.some.inj hoy
      have := hrel.payload r y hy ((EngineRep.fillOrder e p x qty).heap.order y)
        (by simp [cancelEdit, hyx])
      rw [this]
      simp [EngineRep.fillOrder, MatchingEngine.heap, hyx]

theorem executeOrder_edited (he : EngineRep e q free) {p : Int} {x : Ptr} {qty : Quantity}
    (hx : x ∈ q p) (ho : FilledBy e.heap x (executed (e.heap.order x) qty) qty) :
    ∃ q' free', EngineRep (executeOrder e p x qty) q' free' ∧
      Edited e.heap q (executeOrder e p x qty).heap q' (fillEdit e.heap x qty) := by
  unfold executeOrder
  cases hfull : (executed (e.heap.order x) qty).isFilled with
  | false => exact ⟨q, free, he.fill hx ho, fillOrder_edited e q p hfull⟩
  | true =>
    obtain ⟨hprice, hm⟩ := fillOrder_lookup he hx ho
    have hrel := (he.fill hx ho).release hm
    rw [hprice] at hrel
    exact ⟨_, _, hrel, fill_release_edited he hx ho hfull⟩

/-- What an execution leaves open: a partly filled order still has quantity left. -/
theorem fillEdit_open (he : EngineInv e q free) {x : Ptr} {qty : Quantity} {p : Int} {y : Ptr}
    (hy : y ∈ q p) {o : Order} (ho : fillEdit e.heap x qty y = some o) :
    o.type = .limit ∧ o.filledQuantity < o.quantity := by
  unfold fillEdit at ho
  split_ifs at ho with hyx hfull
  · subst hyx
    obtain rfl := Option.some.inj ho
    refine ⟨(he.isOpen p y hy).1, ?_⟩
    simpa [Order.isFilled] using hfull
  · obtain rfl := Option.some.inj ho
    exact he.isOpen p y hy

/-- One iteration of the level loop: the front order is executed, the engine is consistent
again, and the fill is recorded. -/
theorem fillFront (he : EngineInv e q free) {p : Int} (id : OrderId) (side : Side)
    (ts : Timestamp) (rem : Quantity) {qty : Quantity} {x : Ptr} (hx : x ∈ q p)
    (hfront : (e.book.levels p).front = some x)
    (hqty : qty = min rem (e.heap.order x).remainingQuantity) :
    ∃ e' q' free', MatchingEngine.fillFront p id side ts (e, rem) = some (e', rem - qty) ∧
      EngineInv e' q' free' ∧ Edited e.heap q e'.heap q' (fillEdit e.heap x qty) ∧
      e'.fills = e.fills ++ [fillAgainst e p id side ts x qty] := by
  have hle : qty ≤ (e.heap.order x).remainingQuantity := hqty ▸ quantity_min_le _ _
  have ho := FilledBy.executed e.heap (he.isOpen p x hx).2 hle
  obtain ⟨q', free', hrep, hed⟩ := executeOrder_edited
    (he.withFills (e.fills ++ [fillAgainst e p id side ts x qty])).toEngineRep hx ho
  refine ⟨_, q', free', ?_, ⟨hrep, hed.isOpen fun r y hy o hoy => he.fillEdit_open hy hoy⟩, hed, ?_⟩
  · rw [fillFront_eq hfront, hqty]
  · unfold executeOrder
    split <;> rfl

/-! ### Resting a remainder -/

/-- The order an unfilled remainder rests as. -/
def remainderOrder (msg : NewOrderMessage) (rem : Quantity) : Order where
  id := msg.id
  side := msg.side
  type := msg.type
  price := msg.price
  quantity := msg.quantity
  filledQuantity := msg.quantity - rem
  timestamp := msg.timestamp

theorem restRemainder_exhausted (he : EngineRep e q []) (msg : NewOrderMessage)
    (rem : Quantity) : MatchingEngine.restRemainder e msg rem = e := by
  simp only [MatchingEngine.restRemainder, he.pool.allocate_nil]

/-- The pool after the first free slot was handed out and an order constructed in it. -/
theorem construct (he : EngineRep e q (x :: free)) (o : Order) :
    ∃ pool, e.pool.allocate = (some x, pool) ∧ pool.storage = e.heap ∧
      MemoryPool.FreeList { pool with storage := e.heap.set x o } free := by
  obtain ⟨pool, halloc, hstorage, hlist⟩ := he.pool.allocate_cons
  have hx := (List.nodup_cons.1 he.pool.threaded.nodup).1
  refine ⟨pool, halloc, hstorage, hlist.threaded.congr fun y hy => ?_, hlist.available⟩
  rw [hstorage]
  exact Function.update_of_ne (by rintro rfl; exact hx hy) _ _

theorem unlinked_of_free (he : EngineRep e q (x :: free)) (p : Int) : x ∉ q p :=
  fun hx => he.disjoint p x hx (by simp)

/-- Writing to a free slot does not disturb the book. -/
theorem set_free (he : EngineRep e q (x :: free)) (o : Order) :
    BookRep (e.heap.set x o) e.book q ∧ BestExact (e.heap.set x o) e.book q ∧
      ∀ s, sidePrices (e.heap.set x o) q s = sidePrices e.heap q s := by
  have hsame : ∀ p, ∀ y ∈ q p, (e.heap.set x o) y = e.heap y := fun p y hy =>
    Function.update_of_ne (by rintro rfl; exact unlinked_of_free he p hy) _ _
  have hside : ∀ p, ∀ y ∈ q p, ((e.heap.set x o).order y).side = (e.heap.order y).side :=
    fun p y hy => by rw [Heap.order, hsame p y hy, Heap.order]
  refine ⟨he.rep.congr hsame, he.best.congr hside, fun s => ?_⟩
  ext r
  exact exists_congr fun y => and_congr_right fun hy => by rw [hside r y hy]

/-- A duplicate id: the slot is given back and nothing has changed. -/
theorem restRemainder_duplicate (he : EngineRep e q free) (msg : NewOrderMessage)
    (rem : Quantity) (hm : e.book.orderMap msg.id ≠ none) :
    MatchingEngine.restRemainder e msg rem = e := by
  cases free with
  | nil => exact restRemainder_exhausted he msg rem
  | cons x free =>
    obtain ⟨pool, halloc, hback⟩ := he.pool.allocate_deallocate (.object (remainderOrder msg rem))
    have hnot : ¬ BookRep.Acceptable (Heap.set pool.storage x (remainderOrder msg rem)) e.book
        x := by
      rintro ⟨-, -, h⟩
      exact hm (by simpa [remainderOrder] using h)
    have hadd := BookRep.addOrder_rejected hnot
    simp only [remainderOrder] at hadd
    simp only [MatchingEngine.restRemainder, halloc, hadd, Bool.false_eq_true, if_false]
    have hpool : MemoryPool.deallocate
        { pool with storage := Heap.set pool.storage x (remainderOrder msg rem) } x = e.pool :=
      hback
    simp only [remainderOrder] at hpool
    rw [hpool]

theorem remainder_open {msg : NewOrderMessage} {rem : Quantity} (hpos : 0 < rem)
    (hle : rem ≤ msg.quantity) :
    (remainderOrder msg rem).remainingQuantity = rem ∧
      (remainderOrder msg rem).filledQuantity < (remainderOrder msg rem).quantity := by
  simp only [remainderOrder, Order.remainingQuantity]
  refine ⟨by grind, ?_⟩
  have hp := UInt32.lt_iff_toNat_lt.1 hpos
  have hl := UInt32.le_iff_toNat_le.1 hle
  rw [UInt32.lt_iff_toNat_lt, UInt32.toNat_sub_of_le _ _ hle]
  simp only [UInt32.toNat_zero] at hp
  omega

/-- A remainder that is priced off the opposite side rests behind its price level. -/
theorem rest_accepted (he : EngineInv e q (x :: free)) {msg : NewOrderMessage} {rem : Quantity}
    (hm : e.book.orderMap msg.id = none) (hlimit : msg.type = .limit)
    (hprice : 0 ≤ msg.price ∧ msg.price < maxPriceTicks) (hpos : 0 < rem)
    (hle : rem ≤ msg.quantity)
    (hbid : msg.side = .bid → ∀ r ∈ sidePrices e.heap q .ask, msg.price < r)
    (hask : msg.side = .ask → ∀ r ∈ sidePrices e.heap q .bid, r < msg.price) :
    EngineInv (MatchingEngine.restRemainder e msg rem) (appendQueue q msg.price x) free ∧
      (∀ p, ∀ y ∈ q p, ((MatchingEngine.restRemainder e msg rem).heap.order y).payload =
        (e.heap.order y).payload) ∧
      ((MatchingEngine.restRemainder e msg rem).heap.order x).payload =
        (remainderOrder msg rem).payload := by
  have hrep := he.toEngineRep
  obtain ⟨pool, halloc, hstorage, hlist⟩ := construct hrep (remainderOrder msg rem)
  obtain ⟨hbook, hbest, hsides⟩ := set_free hrep (remainderOrder msg rem)
  have hx : (e.heap.set x (remainderOrder msg rem)).order x = remainderOrder msg rem := by simp
  have hacc : BookRep.Acceptable (e.heap.set x (remainderOrder msg rem)) e.book x := by
    rw [BookRep.Acceptable, hx]
    exact ⟨hprice.1, hprice.2, hm⟩
  have heq : MatchingEngine.restRemainder e msg rem = { e with
      book := (e.book.addOrder (e.heap.set x (remainderOrder msg rem)) x).2.1
      pool := { pool with
        storage := (e.book.addOrder (e.heap.set x (remainderOrder msg rem)) x).1 } } := by
    have hok : (e.book.addOrder (e.heap.set x (remainderOrder msg rem)) x).2.2 = true := by
      rw [BookRep.addOrder_eq hacc]
    simp only [remainderOrder] at hok
    simp only [MatchingEngine.restRemainder, halloc, hstorage, hok, if_true, remainderOrder]
  have hrel := hbook.addOrder_relinked hacc
  have hadd := hbook.addOrder (unlinked_of_free hrep) ⟨_, Function.update_self ..⟩ hacc
  have hadd' := hbest.addOrder hbook hacc
  have hp : ((e.heap.set x (remainderOrder msg rem)).order x).price = msg.price := by rw [hx]; rfl
  have hs : ((e.heap.set x (remainderOrder msg rem)).order x).side = msg.side := by rw [hx]; rfl
  have hkeep : ∀ p, ∀ y ∈ q p, (Heap.order (e.book.addOrder (e.heap.set x
      (remainderOrder msg rem)) x).1 y).payload = (e.heap.order y).payload := by
    intro p y hy
    have hyx : y ≠ x := by rintro rfl; exact unlinked_of_free hrep p hy
    rw [hrel.payload, Heap.set_order, if_neg hyx]
  have hself : (Heap.order (e.book.addOrder (e.heap.set x (remainderOrder msg rem)) x).1
      x).payload = (remainderOrder msg rem).payload := by rw [hrel.payload, hx]
  have hprices : ∀ s, sidePrices (e.book.addOrder (e.heap.set x (remainderOrder msg rem)) x).1
      (appendQueue q msg.price x) s =
      if msg.side = s then insert msg.price (sidePrices e.heap q s) else sidePrices e.heap q s := by
    intro s
    have := sidePrices_appendQueue (e.heap.set x (remainderOrder msg rem)) q x s
    rw [hp, hs, hsides] at this
    rw [sidePrices_relinked hrel, this]
  obtain ⟨hxfree, -⟩ := List.nodup_cons.1 he.pool.threaded.nodup
  rw [hp] at hrel hadd hadd'
  rw [heq]
  refine ⟨⟨⟨hadd, hadd', ?_, ⟨?_, hlist.available⟩, ?_, ?_⟩, ?_⟩, hkeep, hself⟩
  · rintro r hr t ht
    change r ∈ sidePrices (OrderBook.addOrder _ _ _).1 _ _ at hr
    change t ∈ sidePrices (OrderBook.addOrder _ _ _).1 _ _ at ht
    rw [hprices] at hr ht
    cases hside : msg.side with
    | bid =>
      simp only [hside, if_true, reduceCtorEq, if_false, Set.mem_insert_iff] at hr ht
      rcases hr with rfl | hr
      exacts [hbid hside t ht, he.uncrossed r hr t ht]
    | ask =>
      simp only [hside, if_true, reduceCtorEq, if_false, Set.mem_insert_iff] at hr ht
      rcases ht with rfl | ht
      exacts [hask hside r hr, he.uncrossed r hr t ht]
  · refine hlist.threaded.congr fun y hy => hrel.frame y ?_
    simp only [List.mem_cons, not_or]
    exact ⟨by rintro rfl; exact hxfree hy, fun hyq => he.disjoint _ y hyq (by simp [hy])⟩
  · intro p y hy
    rcases mem_appendQueue.1 hy with hy | ⟨rfl, -⟩
    · exact fun hyf => he.disjoint p y hy (by simp [hyf])
    · exact hxfree
  · intro y
    rw [← he.slots y]
    simp only [mem_appendQueue, List.mem_cons]
    constructor
    · rintro (hy | ⟨p, hy | ⟨rfl, -⟩⟩)
      exacts [.inl (.inr hy), .inr ⟨p, hy⟩, .inl (.inl rfl)]
    · rintro ((rfl | hy) | ⟨p, hy⟩)
      exacts [.inr ⟨_, .inr ⟨rfl, rfl⟩⟩, .inl hy, .inr ⟨p, .inl hy⟩]
  · refine isOpen_of_payload fun p y hy => ?_
    rcases mem_appendQueue.1 hy with hy | ⟨rfl, -⟩
    · exact ⟨_, hkeep p y hy, he.isOpen p y hy⟩
    · exact ⟨_, hself, hlimit, (remainder_open hpos hle).2⟩

end EngineInv

end LockfreeMatching
