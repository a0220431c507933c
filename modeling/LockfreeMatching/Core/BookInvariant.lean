import LockfreeMatching.Core.OrderBook
import Mathlib.Data.Set.Card
import Mathlib.Order.Bounds.Basic

/-!
# Representation invariant of the order book

`BookRep h b q` ties the four redundant representations of the resting orders together:
the queue `q p` linked at every price, the id map, the side counters and the level
aggregates. The queues are ghost data determined by memory. `BestExact` says that the
cached best prices are the extreme prices of the resting orders, and `Uncrossed` that
every bid price is below every ask price.

`BookRep` alone is kept by every operation. `BestExact` needs more: the rescan after a
cancel ignores sides, so it finds the right level only in an uncrossed book.

## Main results

* `BookRep.addOrder`, `BookRep.cancelOrder`: one specification per operation.
* `BestExact.addOrder`, `BestExact.cancelOrder`: best prices stay exact.
-/
namespace LockfreeMatching

open Lib

/-- The resting orders of one side. -/
def resting (h : Heap) (q : Int → List Ptr) (s : Side) : Set Ptr :=
  {x | x ∈ q (h.order x).price ∧ (h.order x).side = s}

/-- The prices at which some order of side `s` rests. -/
def sidePrices (h : Heap) (q : Int → List Ptr) (s : Side) : Set Int :=
  {p | ∃ x ∈ q p, (h.order x).side = s}

structure BookRep (h : Heap) (b : OrderBook) (q : Int → List Ptr) : Prop where
  level : ∀ p, LevelRep h (b.levels p) (q p)
  live : ∀ p, ∀ x ∈ q p, h.Live x
  price : ∀ p, ∀ x ∈ q p, (h.order x).price = p
  range : ∀ p, ∀ x ∈ q p, 0 ≤ p ∧ p < maxPriceTicks
  map : ∀ id x, b.orderMap id = some x ↔ x ∈ q (h.order x).price ∧ (h.order x).id = id
  count : ∀ s, (b.count s).toNat = (resting h q s).ncard

/-- Every resting bid is priced below every resting ask. -/
def Uncrossed (h : Heap) (q : Int → List Ptr) : Prop :=
  ∀ p ∈ sidePrices h q .bid, ∀ r ∈ sidePrices h q .ask, p < r

/-- The cached best prices are the extreme prices of the two sides, or the sentinels. -/
structure BestExact (h : Heap) (b : OrderBook) (q : Int → List Ptr) : Prop where
  bid : (sidePrices h q .bid = ∅ ∧ b.bestBid = 0) ∨ IsGreatest (sidePrices h q .bid) b.bestBid
  ask : (sidePrices h q .ask = ∅ ∧ b.bestAsk = maxPriceTicks - 1) ∨
    IsLeast (sidePrices h q .ask) b.bestAsk

theorem BestExact.isGreatest {h : Heap} {b : OrderBook} {q : Int → List Ptr} {p : Int}
    (hb : BestExact h b q) (hp : p ∈ sidePrices h q .bid) :
    IsGreatest (sidePrices h q .bid) b.bestBid :=
  hb.bid.resolve_left fun hempty => Set.notMem_empty p (hempty.1 ▸ hp)

theorem BestExact.isLeast {h : Heap} {b : OrderBook} {q : Int → List Ptr} {p : Int}
    (hb : BestExact h b q) (hp : p ∈ sidePrices h q .ask) :
    IsLeast (sidePrices h q .ask) b.bestAsk :=
  hb.ask.resolve_left fun hempty => Set.notMem_empty p (hempty.1 ▸ hp)

/-! ## Queues as ghost state -/

def appendQueue (q : Int → List Ptr) (p : Int) (x : Ptr) : Int → List Ptr :=
  Function.update q p (q p ++ [x])

def eraseQueue (q : Int → List Ptr) (p : Int) (x : Ptr) : Int → List Ptr :=
  Function.update q p ((q p).erase x)

theorem mem_appendQueue {q : Int → List Ptr} {p r : Int} {x y : Ptr} :
    y ∈ appendQueue q p x r ↔ y ∈ q r ∨ (y = x ∧ r = p) := by
  by_cases hr : r = p
  · subst hr; simp [appendQueue]
  · simp [appendQueue, hr]

namespace BookRep

variable {h : Heap} {b : OrderBook} {q : Int → List Ptr}

theorem nodup (hr : BookRep h b q) (p : Int) : (q p).Nodup := (hr.level p).links.nodup

theorem mem_iff (hr : BookRep h b q) {x : Ptr} {p : Int} :
    x ∈ q p ↔ x ∈ q (h.order x).price ∧ (h.order x).price = p := by
  constructor
  · intro hx
    have := hr.price p x hx
    exact ⟨this ▸ hx, this⟩
  · rintro ⟨hx, rfl⟩
    exact hx

theorem mem_eraseQueue (hr : BookRep h b q) {x y : Ptr} {r : Int} :
    y ∈ eraseQueue q (h.order x).price x r ↔ y ∈ q r ∧ y ≠ x := by
  by_cases he : r = (h.order x).price
  · subst he
    simp [eraseQueue, (hr.nodup _).mem_erase_iff, and_comm]
  · -- another level cannot hold `x`
    have : y ∈ q r → y ≠ x := by
      rintro hy rfl
      exact he (hr.price r y hy).symm
    simp only [eraseQueue, Function.update_of_ne he]
    tauto

theorem empty_iff (hr : BookRep h b q) (p : Int) : (b.levels p).empty = true ↔ q p = [] :=
  (hr.level p).empty_iff

theorem sidePrices_eq_empty (hr : BookRep h b q) (s : Side) :
    sidePrices h q s = ∅ ↔ b.count s = 0 := by
  have hz : b.count s = 0 ↔ (resting h q s).ncard = 0 := by
    rw [← hr.count s, ← UInt64.toNat_inj]
    rfl
  rw [hz, Set.ncard_eq_zero, Set.eq_empty_iff_forall_notMem, Set.eq_empty_iff_forall_notMem]
  constructor
  · rintro hall x ⟨hx, hs⟩
    exact hall _ ⟨x, hx, hs⟩
  · rintro hall p ⟨x, hx, hs⟩
    exact hall x ⟨(hr.mem_iff.1 hx).1, hs⟩

theorem sidePrices_range (hr : BookRep h b q) {s : Side} {p : Int}
    (hp : p ∈ sidePrices h q s) : 0 ≤ p ∧ p < maxPriceTicks := by
  obtain ⟨x, hx, -⟩ := hp
  exact hr.range p x hx

/-- A non-empty level belongs to one of the two sides. -/
theorem nonempty_level (hr : BookRep h b q) {p : Int} (hp : (b.levels p).empty = false) :
    ∃ x ∈ q p, p ∈ sidePrices h q (h.order x).side := by
  cases hq : q p with
  | nil =>
    rw [(hr.empty_iff p).2 hq] at hp
    cases hp
  | cons x l => exact ⟨x, by simp, x, by simp [hq], rfl⟩

theorem exists_cons (hr : BookRep h b q) {p : Int} (hp : (b.levels p).empty = false) :
    ∃ x l, q p = x :: l := by
  obtain ⟨x, hx, -⟩ := hr.nonempty_level hp
  exact List.exists_cons_of_ne_nil (List.ne_nil_of_mem hx)

/-- Memory that is not linked in the book may change freely. -/
theorem congr (hr : BookRep h b q) {h' : Heap} (heq : ∀ p, ∀ x ∈ q p, h' x = h x) :
    BookRep h' b q := by
  have hord : ∀ p, ∀ x ∈ q p, h'.order x = h.order x := by
    intro p x hx
    rw [Heap.order, heq p x hx, Heap.order]
  have hlinked : ∀ x, x ∈ q (h'.order x).price ↔ x ∈ q (h.order x).price := by
    intro x
    constructor
    · intro hx
      exact (hord _ x hx) ▸ hx
    · intro hx
      exact (hord _ x hx).symm ▸ hx
  refine ⟨fun p => (hr.level p).congr (hord p), ?_, ?_, hr.range, ?_, ?_⟩
  · intro p x hx
    obtain ⟨o, ho⟩ := hr.live p x hx
    exact ⟨o, (heq p x hx).trans ho⟩
  · intro p x hx
    rw [hord p x hx]
    exact hr.price p x hx
  · intro id x
    rw [hr.map, hlinked]
    constructor
    · rintro ⟨hx, rfl⟩
      exact ⟨hx, by rw [hord _ x hx]⟩
    · rintro ⟨hx, rfl⟩
      exact ⟨hx, by rw [hord _ x hx]⟩
  · intro s
    rw [hr.count s]
    congr 1
    ext x
    simp only [resting, Set.mem_ofPred_eq, hlinked]
    constructor
    · rintro ⟨hx, rfl⟩
      exact ⟨hx, by rw [hord _ x hx]⟩
    · rintro ⟨hx, rfl⟩
      exact ⟨hx, by rw [hord _ x hx]⟩

theorem new (h : Heap) : BookRep h {} fun _ => [] where
  level _ := .new h
  live := by simp
  price := by simp
  range := by simp
  map := by simp
  count s := by
    have : resting h (fun _ => []) s = ∅ := by ext; simp [resting]
    rw [this]
    cases s <;> simp [OrderBook.count]

/-! ## Unlinking -/

theorem resting_relinked {S : List Ptr} {h h' : Heap} (hrel : Relinked S h h')
    (q : Int → List Ptr) (s : Side) : resting h' q s = resting h q s := by
  ext x
  simp only [resting, Set.mem_ofPred_eq, hrel.price, hrel.side]

theorem resting_eraseQueue (hr : BookRep h b q) {x : Ptr} (s : Side) :
    resting h (eraseQueue q (h.order x).price x) s = resting h q s \ {x} := by
  ext y
  simp only [resting, Set.mem_ofPred_eq, hr.mem_eraseQueue, Set.mem_sdiff,
    Set.mem_singleton_iff]
  tauto

theorem unlinkOrder_relinked (hr : BookRep h b q) {id : OrderId} {x : Ptr}
    (hm : b.orderMap id = some x) :
    Relinked (q (h.order x).price) h (b.unlinkOrder h id x).1 :=
  remove_relinked (hr.level _) ((hr.map id x).1 hm).1

theorem unlinkOrder (hr : BookRep h b q) {id : OrderId} {x : Ptr}
    (hm : b.orderMap id = some x) :
    BookRep (b.unlinkOrder h id x).1 (b.unlinkOrder h id x).2
      (eraseQueue q (h.order x).price x) := by
  obtain ⟨hx, hid⟩ := (hr.map id x).1 hm
  have hrel := hr.unlinkOrder_relinked hm
  have hlevels : (b.unlinkOrder h id x).2.levels = Function.update b.levels (h.order x).price
      ((b.levels (h.order x).price).remove h x).2 := by simp [OrderBook.unlinkOrder]
  have hmap : (b.unlinkOrder h id x).2.orderMap = Function.update b.orderMap id none := by
    simp [OrderBook.unlinkOrder]
  refine ⟨?_, ?_, ?_, ?_, ?_, ?_⟩
  · intro r
    rw [hlevels]
    by_cases he : r = (h.order x).price
    · subst he
      obtain ⟨l₁, l₂, hq⟩ := List.append_of_mem hx
      have hlevel := hr.level (h.order x).price
      have hx₁ : x ∉ l₁ := by
        have := List.nodup_cons.1 (List.nodup_middle.1 (hq ▸ hr.nodup (h.order x).price))
        simp only [List.mem_append, not_or] at this
        exact this.1.1
      rw [hq] at hlevel
      rw [Function.update_self, eraseQueue, Function.update_self, hq,
        List.erase_append_right _ hx₁, List.erase_cons_head]
      exact hlevel.remove
    · rw [Function.update_of_ne he, eraseQueue, Function.update_of_ne he]
      refine (hr.level r).congr fun y hy => ?_
      have hy' : y ∉ q (h.order x).price := fun hy' => he ((hr.price _ y hy).symm.trans
        (hr.price _ y hy'))
      rw [Heap.order, hrel.frame y hy', Heap.order]
  · exact fun r y hy => hrel.live y (hr.live r y (hr.mem_eraseQueue.1 hy).1)
  · exact fun r y hy => (hrel.price y).trans (hr.price r y (hr.mem_eraseQueue.1 hy).1)
  · exact fun r y hy => hr.range r y (hr.mem_eraseQueue.1 hy).1
  · intro id' y
    rw [hmap, hrel.price, hrel.id, hr.mem_eraseQueue]
    by_cases he : id' = id
    · subst he
      rw [Function.update_self]
      refine ⟨by simp, ?_⟩
      rintro ⟨⟨hy, hne⟩, hy'⟩
      have := hm.symm.trans ((hr.map id' y).2 ⟨hy, hy'⟩)
      exact absurd (Option.some.inj this).symm hne
    · rw [Function.update_of_ne he, hr.map]
      constructor
      · rintro ⟨hy, hy'⟩
        refine ⟨⟨hy, ?_⟩, hy'⟩
        rintro rfl
        exact he (hy'.symm.trans hid)
      · rintro ⟨⟨hy, -⟩, hy'⟩
        exact ⟨hy, hy'⟩
  · intro s
    rw [resting_relinked hrel, hr.resting_eraseQueue, OrderBook.unlinkOrder,
      OrderBook.noteRemoved_count]
    change (if _ then b.count s - 1 else b.count s).toNat = _
    split
    · rename_i hs
      have hmem : x ∈ resting h q s := ⟨hx, hs⟩
      have hpos : 0 < (resting h q s).ncard := (Set.ncard_pos (Set.toFinite _)).2 ⟨x, hmem⟩
      have hle : (1 : UInt64) ≤ b.count s := by
        rw [UInt64.le_iff_toNat_le, hr.count s]
        exact hpos
      rw [UInt64.toNat_sub_of_le _ _ hle, hr.count s, Set.ncard_sdiff_singleton_of_mem hmem]
      rfl
    · rename_i hs
      have hmem : x ∉ resting h q s := fun hmem => hs hmem.2
      rw [Set.sdiff_singleton_eq_self hmem, hr.count s]

/-- Cached best prices are not part of the representation. -/
theorem repairBest (hr : BookRep h b q) (s : Side) (p : Int) : BookRep h (b.repairBest s p) q := by
  obtain ⟨bid, ask, he⟩ := b.repairBest_eq s p
  rw [he]
  refine ⟨hr.level, hr.live, hr.price, hr.range, hr.map, fun t => ?_⟩
  rw [← hr.count t]
  cases t <;> rfl

/-! ## The two operations -/

theorem cancelOrder_eq {id : OrderId} {x : Ptr} (hm : b.orderMap id = some x) :
    b.cancelOrder h id = ((b.unlinkOrder h id x).1,
      (b.unlinkOrder h id x).2.repairBest (h.order x).side (h.order x).price, true) := by
  simp [OrderBook.cancelOrder, hm]

theorem cancelOrder (hr : BookRep h b q) {id : OrderId} {x : Ptr}
    (hm : b.orderMap id = some x) :
    BookRep (b.cancelOrder h id).1 (b.cancelOrder h id).2.1
      (eraseQueue q (h.order x).price x) := by
  rw [cancelOrder_eq hm]
  exact (hr.unlinkOrder hm).repairBest _ _

theorem cancelOrder_relinked (hr : BookRep h b q) {id : OrderId} {x : Ptr}
    (hm : b.orderMap id = some x) :
    Relinked (q (h.order x).price) h (b.cancelOrder h id).1 := by
  rw [cancelOrder_eq hm]
  exact hr.unlinkOrder_relinked hm

/-- What `addOrder` checks before it touches the book. -/
def Acceptable (h : Heap) (b : OrderBook) (x : Ptr) : Prop :=
  0 ≤ (h.order x).price ∧ (h.order x).price < maxPriceTicks ∧ b.orderMap (h.order x).id = none

theorem addOrder_rejected {x : Ptr} (hx : ¬ Acceptable h b x) :
    b.addOrder h x = (h, b, false) := by
  unfold OrderBook.addOrder
  by_cases hp : (h.order x).price < 0 ∨ maxPriceTicks ≤ (h.order x).price
  · simp [hp]
  · cases hm : b.orderMap (h.order x).id with
    | none => exact absurd ⟨by omega, by omega, hm⟩ hx
    | some y => simp [hp, hm]

theorem addOrder_eq {x : Ptr} (hx : Acceptable h b x) :
    b.addOrder h x =
      (((b.levels (h.order x).price).pushBack h x).1,
        ({ b with
          orderMap := Function.update b.orderMap (h.order x).id (some x)
          levels := Function.update b.levels (h.order x).price
            ((b.levels (h.order x).price).pushBack h x).2 } : OrderBook).noteAdded
          (h.order x).side (h.order x).price, true) := by
  obtain ⟨h0, hlt, hm⟩ := hx
  have hp : ¬ ((h.order x).price < 0 ∨ maxPriceTicks ≤ (h.order x).price) := by omega
  simp [OrderBook.addOrder, hp, hm]

theorem addOrder_relinked (hr : BookRep h b q) {x : Ptr} (hx : Acceptable h b x) :
    Relinked (x :: q (h.order x).price) h (b.addOrder h x).1 := by
  rw [addOrder_eq hx]
  exact pushBack_relinked (hr.level _) x

theorem resting_appendQueue (h : Heap) (q : Int → List Ptr) (x : Ptr) (s : Side) :
    resting h (appendQueue q (h.order x).price x) s =
      if (h.order x).side = s then insert x (resting h q s) else resting h q s := by
  ext y
  have hmem : y ∈ resting h (appendQueue q (h.order x).price x) s ↔
      (y ∈ q (h.order y).price ∨ y = x) ∧ (h.order y).side = s := by
    simp only [resting, Set.mem_ofPred_eq, mem_appendQueue]
    constructor
    · rintro ⟨hy | ⟨hy, -⟩, hs⟩
      exacts [⟨.inl hy, hs⟩, ⟨.inr hy, hs⟩]
    · rintro ⟨hy | rfl, hs⟩
      exacts [⟨.inl hy, hs⟩, ⟨.inr ⟨rfl, rfl⟩, hs⟩]
  rw [hmem]
  split
  · rename_i hs
    simp only [Set.mem_insert_iff, resting, Set.mem_ofPred_eq]
    constructor
    · rintro ⟨hy | hy, hs'⟩
      exacts [.inr ⟨hy, hs'⟩, .inl hy]
    · rintro (rfl | ⟨hy, hs'⟩)
      exacts [⟨.inr rfl, hs⟩, ⟨.inl hy, hs'⟩]
  · rename_i hs
    simp only [resting, Set.mem_ofPred_eq]
    constructor
    · rintro ⟨hy | rfl, hs'⟩
      exacts [⟨hy, hs'⟩, absurd hs' hs]
    · rintro ⟨hy, hs'⟩
      exact ⟨.inl hy, hs'⟩

theorem addOrder (hr : BookRep h b q) {x : Ptr} (hfree : ∀ p, x ∉ q p) (hlive : h.Live x)
    (hx : Acceptable h b x) :
    BookRep (b.addOrder h x).1 (b.addOrder h x).2.1 (appendQueue q (h.order x).price x) := by
  have hrel := hr.addOrder_relinked hx
  have hmap : (b.addOrder h x).2.1.orderMap =
      Function.update b.orderMap (h.order x).id (some x) := by simp [addOrder_eq hx]
  have hlevels : (b.addOrder h x).2.1.levels = Function.update b.levels (h.order x).price
      ((b.levels (h.order x).price).pushBack h x).2 := by simp [addOrder_eq hx]
  have hcount : ∀ s, (b.addOrder h x).2.1.count s =
      if (h.order x).side = s then b.count s + 1 else b.count s := by
    intro s
    rw [addOrder_eq hx, OrderBook.noteAdded_count]
    cases s <;> rfl
  refine ⟨?_, ?_, ?_, ?_, ?_, ?_⟩
  · intro r
    rw [hlevels]
    by_cases he : r = (h.order x).price
    · subst he
      rw [Function.update_self, appendQueue, Function.update_self, addOrder_eq hx]
      exact (hr.level _).pushBack (hfree _)
    · rw [Function.update_of_ne he, appendQueue, Function.update_of_ne he]
      refine (hr.level r).congr fun y hy => ?_
      have hy' : y ∉ x :: q (h.order x).price := by
        rw [List.mem_cons, not_or]
        refine ⟨?_, fun hy' => he ((hr.price _ y hy).symm.trans (hr.price _ y hy'))⟩
        rintro rfl
        exact hfree _ hy
      rw [Heap.order, hrel.frame y hy', Heap.order]
  · intro r y hy
    rcases mem_appendQueue.1 hy with hy | ⟨rfl, -⟩
    exacts [hrel.live y (hr.live r y hy), hrel.live _ hlive]
  · intro r y hy
    rw [hrel.price]
    rcases mem_appendQueue.1 hy with hy | ⟨rfl, rfl⟩
    exacts [hr.price r y hy, rfl]
  · intro r y hy
    rcases mem_appendQueue.1 hy with hy | ⟨rfl, rfl⟩
    exacts [hr.range r y hy, ⟨hx.1, hx.2.1⟩]
  · intro id y
    rw [hmap, hrel.price, hrel.id, mem_appendQueue]
    by_cases he : id = (h.order x).id
    · subst he
      rw [Function.update_self]
      constructor
      · intro hy
        obtain rfl : x = y := Option.some.inj hy
        exact ⟨.inr ⟨rfl, rfl⟩, rfl⟩
      · rintro ⟨hy | ⟨rfl, -⟩, hid⟩
        · -- the id was not in the map, so no resting order carries it
          have := (hr.map _ y).2 ⟨hy, hid⟩
          rw [hx.2.2] at this
          cases this
        · rfl
    · rw [Function.update_of_ne he, hr.map]
      constructor
      · rintro ⟨hy, hid⟩
        exact ⟨.inl hy, hid⟩
      · rintro ⟨hy | ⟨rfl, -⟩, hid⟩
        exacts [⟨hy, hid⟩, absurd hid.symm he]
  · intro s
    rw [resting_relinked hrel, resting_appendQueue, hcount]
    split
    · have hnew : x ∉ resting h q s := fun hmem => hfree _ hmem.1
      have hcard : (insert x (resting h q s)).ncard < 2 ^ 64 := by
        have := Set.ncard_le_card (insert x (resting h q s))
        rw [Nat.card_eq_fintype_card, Fintype.card_fin] at this
        omega
      rw [Set.ncard_insert_of_notMem hnew] at hcard ⊢
      rw [UInt64.toNat_add, hr.count s]
      simp only [UInt64.toNat_one]
      omega
    · exact hr.count s

end BookRep

/-! ## Best prices -/

section Best

variable {h : Heap} {b : OrderBook} {q : Int → List Ptr}

theorem sidePrices_relinked {S : List Ptr} {h h' : Heap} (hrel : Relinked S h h')
    (q : Int → List Ptr) (s : Side) : sidePrices h' q s = sidePrices h q s := by
  simp only [sidePrices, hrel.side]

theorem sidePrices_appendQueue (h : Heap) (q : Int → List Ptr) (x : Ptr) (s : Side) :
    sidePrices h (appendQueue q (h.order x).price x) s =
      if (h.order x).side = s then insert (h.order x).price (sidePrices h q s)
      else sidePrices h q s := by
  ext r
  have hmem : r ∈ sidePrices h (appendQueue q (h.order x).price x) s ↔
      r ∈ sidePrices h q s ∨ (r = (h.order x).price ∧ (h.order x).side = s) := by
    simp only [sidePrices, Set.mem_ofPred_eq, mem_appendQueue]
    constructor
    · rintro ⟨y, hy | ⟨rfl, rfl⟩, hs⟩
      exacts [.inl ⟨y, hy, hs⟩, .inr ⟨rfl, hs⟩]
    · rintro (⟨y, hy, hs⟩ | ⟨rfl, hs⟩)
      exacts [⟨y, .inl hy, hs⟩, ⟨x, .inr ⟨rfl, rfl⟩, hs⟩]
  rw [hmem]
  split
  · rename_i hs
    simp only [hs, and_true, Set.mem_insert_iff]
    tauto
  · rename_i hs
    simp only [hs, and_false, or_false]

theorem BestExact.new (h : Heap) : BestExact h {} fun _ => [] :=
  ⟨.inl ⟨by ext; simp [sidePrices], rfl⟩, .inl ⟨by ext; simp [sidePrices], rfl⟩⟩

theorem BestExact.congr {h' : Heap} (hb : BestExact h b q)
    (heq : ∀ p, ∀ x ∈ q p, (h'.order x).side = (h.order x).side) : BestExact h' b q := by
  have hset : ∀ s, sidePrices h' q s = sidePrices h q s := by
    intro s
    ext r
    simp only [sidePrices, Set.mem_ofPred_eq]
    exact exists_congr fun x => and_congr_right fun hx => by rw [heq r x hx]
  exact ⟨hset .bid ▸ hb.bid, hset .ask ▸ hb.ask⟩

theorem isGreatest_insert_best {P : Set Int} {best p : Int} (hP : IsGreatest P best) :
    IsGreatest (insert p P) (if best < p then p else best) := by
  have := hP.insert p
  rwa [show (if best < p then p else best) = max p best by split <;> omega]

theorem isLeast_insert_best {P : Set Int} {best p : Int} (hP : IsLeast P best) :
    IsLeast (insert p P) (if p < best then p else best) := by
  have := hP.insert p
  rwa [show (if p < best then p else best) = min p best by split <;> omega]

theorem BestExact.addOrder (hr : BookRep h b q) (hb : BestExact h b q) {x : Ptr}
    (hx : BookRep.Acceptable h b x) :
    BestExact (b.addOrder h x).1 (b.addOrder h x).2.1
      (appendQueue q (h.order x).price x) := by
  have hset : ∀ s, sidePrices (b.addOrder h x).1 (appendQueue q (h.order x).price x) s =
      if (h.order x).side = s then insert (h.order x).price (sidePrices h q s)
      else sidePrices h q s := by
    intro s
    rw [sidePrices_relinked (hr.addOrder_relinked hx), sidePrices_appendQueue]
  have hone : ∀ c : UInt64, c + 1 = 1 ↔ c = 0 := by grind
  rw [BookRep.addOrder_eq hx] at hset ⊢
  cases hs : (h.order x).side with
  | bid =>
    rw [hs] at hset
    refine ⟨?_, ?_⟩
    · right
      rw [hset, if_pos rfl]
      simp only [OrderBook.noteAdded, hone]
      rcases hb.bid with ⟨he, -⟩ | hg
      · have hc : b.bidCount = 0 := (hr.sidePrices_eq_empty .bid).1 he
        simp [hc, he]
      · have hc : b.bidCount ≠ 0 := fun hc =>
          (hg.nonempty.ne_empty) ((hr.sidePrices_eq_empty .bid).2 hc)
        simpa only [hc, false_or] using isGreatest_insert_best hg
    · rw [hset, if_neg (by simp)]
      exact hb.ask
  | ask =>
    rw [hs] at hset
    refine ⟨?_, ?_⟩
    · rw [hset, if_neg (by simp)]
      exact hb.bid
    · right
      rw [hset, if_pos rfl]
      simp only [OrderBook.noteAdded, hone]
      rcases hb.ask with ⟨he, -⟩ | hg
      · have hc : b.askCount = 0 := (hr.sidePrices_eq_empty .ask).1 he
        simp [hc, he]
      · have hc : b.askCount ≠ 0 := fun hc =>
          (hg.nonempty.ne_empty) ((hr.sidePrices_eq_empty .ask).2 hc)
        simpa only [hc, false_or] using isLeast_insert_best hg

/-- A downward rescan finds the greatest bid price if the levels below `p` that are not
empty are exactly the bid levels. -/
theorem scanBids_isGreatest {b : OrderBook} {bids : Set Int} {p : Int} (hne : bids.Nonempty)
    (hlt : ∀ r ∈ bids, 0 ≤ r ∧ r < p)
    (hlev : ∀ r, 0 ≤ r → r < p → ((b.levels r).empty = false ↔ r ∈ bids)) :
    ∃ r, b.scanBids p = some r ∧ IsGreatest bids r := by
  obtain ⟨m, hm⟩ := hne
  have hmp := hlt m hm
  unfold OrderBook.scanBids
  cases hscan : OrderBook.scanDown b.levels p.toNat with
  | none =>
    have := OrderBook.scanDown_none hscan m hmp.1 (by omega)
    rw [(hlev m hmp.1 hmp.2).2 hm] at this
    cases this
  | some r =>
    obtain ⟨h0, hrp, hne, hall⟩ := OrderBook.scanDown_some hscan
    refine ⟨r, rfl, (hlev r h0 (by omega)).1 hne, fun t ht => ?_⟩
    by_contra hlt'
    have htp := hlt t ht
    have := hall t (by omega) (by omega)
    rw [(hlev t htp.1 htp.2).2 ht] at this
    cases this

theorem scanAsks_isLeast {b : OrderBook} {asks : Set Int} {p : Int} (hne : asks.Nonempty)
    (hlt : ∀ r ∈ asks, p < r ∧ r < maxPriceTicks)
    (hlev : ∀ r, p < r → r < maxPriceTicks → ((b.levels r).empty = false ↔ r ∈ asks)) :
    ∃ r, b.scanAsks p = some r ∧ IsLeast asks r := by
  obtain ⟨m, hm⟩ := hne
  have hmp := hlt m hm
  unfold OrderBook.scanAsks
  cases hscan : OrderBook.scanUp b.levels (maxPriceTicks - (p + 1)).toNat (p + 1) with
  | none =>
    have := OrderBook.scanUp_none hscan m (by omega) (by omega)
    rw [(hlev m hmp.1 hmp.2).2 hm] at this
    cases this
  | some r =>
    obtain ⟨hle, hrp, hne, hall⟩ := OrderBook.scanUp_some hscan
    refine ⟨r, rfl, (hlev r (by omega) (by omega)).1 hne, fun t ht => ?_⟩
    by_contra hlt'
    have htp := hlt t ht
    have := hall t (by omega) (by omega)
    rw [(hlev t htp.1 htp.2).2 ht] at this
    cases this

/-! ### Cancelling -/

theorem sidePrices_eraseQueue_subset (hr : BookRep h b q) (x : Ptr) (s : Side) :
    sidePrices h (eraseQueue q (h.order x).price x) s ⊆ sidePrices h q s := by
  rintro r ⟨y, hy, hs⟩
  exact ⟨y, (hr.mem_eraseQueue.1 hy).1, hs⟩

/-- Prices other than the cancelled one keep their orders. -/
theorem mem_sidePrices_eraseQueue (hr : BookRep h b q) {x : Ptr} {s : Side} {r : Int}
    (hne : r ≠ (h.order x).price) (hmem : r ∈ sidePrices h q s) :
    r ∈ sidePrices h (eraseQueue q (h.order x).price x) s := by
  obtain ⟨y, hy, hs⟩ := hmem
  refine ⟨y, hr.mem_eraseQueue.2 ⟨hy, ?_⟩, hs⟩
  rintro rfl
  exact hne (hr.price r y hy).symm

/-- All orders at one price are on one side. -/
theorem Uncrossed.same_side (hu : Uncrossed h q) {p : Int} {x y : Ptr} (hx : x ∈ q p)
    (hy : y ∈ q p) : (h.order x).side = (h.order y).side := by
  cases hsx : (h.order x).side <;> cases hsy : (h.order y).side
  · rfl
  · exact absurd (hu p ⟨x, hx, hsx⟩ p ⟨y, hy, hsy⟩) (lt_irrefl p)
  · exact absurd (hu p ⟨y, hy, hsy⟩ p ⟨x, hx, hsx⟩) (lt_irrefl p)
  · rfl

/-- A cancel that leaves its level non-empty, or is on the other side, loses no price. -/
theorem sidePrices_eraseQueue_eq (hr : BookRep h b q) (hu : Uncrossed h q) {x : Ptr} {s : Side}
    (hx : x ∈ q (h.order x).price)
    (hkeep : (h.order x).side ≠ s ∨ eraseQueue q (h.order x).price x (h.order x).price ≠ []) :
    sidePrices h (eraseQueue q (h.order x).price x) s = sidePrices h q s := by
  refine Set.Subset.antisymm (sidePrices_eraseQueue_subset hr x s) ?_
  intro r hmem
  by_cases hne : r = (h.order x).price
  · subst hne
    obtain ⟨y, hy, hs⟩ := hmem
    rcases hkeep with hside | hlevel
    · exact ⟨y, hr.mem_eraseQueue.2 ⟨hy, by rintro rfl; exact hside hs⟩, hs⟩
    · obtain ⟨z, hz⟩ := List.exists_mem_of_ne_nil _ hlevel
      have hz' := (hr.mem_eraseQueue.1 hz).1
      exact ⟨z, hz, (hu.same_side hz' hy).trans hs⟩
  · exact mem_sidePrices_eraseQueue hr hne hmem

theorem Uncrossed.eraseQueue (hr : BookRep h b q) (hu : Uncrossed h q) (x : Ptr) :
    Uncrossed h (eraseQueue q (h.order x).price x) := fun p hp r hr' =>
  hu p (sidePrices_eraseQueue_subset hr x _ hp) r (sidePrices_eraseQueue_subset hr x _ hr')

/-- A consistent, uncrossed book in which order `x` is about to be cancelled by its id. -/
structure Cancelling (h : Heap) (b : OrderBook) (q : Int → List Ptr) (id : OrderId) (x : Ptr) :
    Prop where
  rep : BookRep h b q
  best : BestExact h b q
  uncrossed : Uncrossed h q
  lookup : b.orderMap id = some x

namespace Cancelling

variable {id : OrderId} {x : Ptr}

theorem linked (hc : Cancelling h b q id x) : x ∈ q (h.order x).price :=
  ((hc.rep.map id x).1 hc.lookup).1

theorem sidePrices_eq (hc : Cancelling h b q id x) (s : Side) :
    sidePrices (b.unlinkOrder h id x).1 (eraseQueue q (h.order x).price x) s =
      sidePrices h (eraseQueue q (h.order x).price x) s :=
  sidePrices_relinked (hc.rep.unlinkOrder_relinked hc.lookup) _ s

theorem mem_side (hc : Cancelling h b q id x) {s : Side} (hs : (h.order x).side = s) :
    (h.order x).price ∈ sidePrices h q s := ⟨x, hc.linked, hs⟩

/-- The price of an emptied level is gone. -/
theorem ne_price (he : eraseQueue q (h.order x).price x (h.order x).price = []) {s : Side} {r : Int}
    (hr : r ∈ sidePrices h (eraseQueue q (h.order x).price x) s) : r ≠ (h.order x).price := by
  rintro rfl
  obtain ⟨y, hy, -⟩ := hr
  rw [he] at hy
  cases hy

theorem nonempty_of_count (hc : Cancelling h b q id x) (s : Side)
    (hcount : (b.unlinkOrder h id x).2.count s ≠ 0) :
    (sidePrices h (eraseQueue q (h.order x).price x) s).Nonempty := by
  rw [← hc.sidePrices_eq, Set.nonempty_iff_ne_empty]
  intro hempty
  exact hcount (((hc.rep.unlinkOrder hc.lookup).sidePrices_eq_empty s).1 hempty)

/-- Where the other side cannot rest, a level that is not empty belongs to this side. -/
theorem level_iff (hc : Cancelling h b q id x) {s : Side} {r : Int}
    (hother : r ∉ sidePrices h (eraseQueue q (h.order x).price x) s.opposite) :
    ((b.unlinkOrder h id x).2.levels r).empty = false ↔
      r ∈ sidePrices h (eraseQueue q (h.order x).price x) s := by
  have hrep := hc.rep.unlinkOrder hc.lookup
  constructor
  · intro hlevel
    obtain ⟨y, -, hy⟩ := hrep.nonempty_level hlevel
    rw [hc.sidePrices_eq] at hy
    cases s <;> cases hside : ((b.unlinkOrder h id x).1.order y).side <;> rw [hside] at hy
    · exact hy
    · exact absurd hy hother
    · exact absurd hy hother
    · exact hy
  · rintro ⟨y, hy, -⟩
    rw [Bool.eq_false_iff, ne_eq, hrep.empty_iff]
    exact List.ne_nil_of_mem hy

/-- After the best bid level was emptied, the levels below it that are not empty are bids. -/
theorem scanBids (hc : Cancelling h b q id x) (hs : (h.order x).side = .bid)
    (hp : (h.order x).price = b.bestBid)
    (he : eraseQueue q (h.order x).price x (h.order x).price = [])
    (hcount : (b.unlinkOrder h id x).2.bidCount ≠ 0) :
    ∃ r, (b.unlinkOrder h id x).2.scanBids (h.order x).price = some r ∧
      IsGreatest (sidePrices h (eraseQueue q (h.order x).price x) .bid) r := by
  have hbid := hc.mem_side hs
  apply scanBids_isGreatest (hc.nonempty_of_count .bid hcount)
  · intro r hr
    have hsub := sidePrices_eraseQueue_subset hc.rep x _ hr
    have hle := (hc.best.isGreatest hbid).2 hsub
    have hne := ne_price he hr
    exact ⟨(hc.rep.sidePrices_range hsub).1, by omega⟩
  · -- an ask below the old best bid would have crossed the book
    intro r h0 hlt
    apply hc.level_iff
    intro hask
    have := hc.uncrossed _ hbid r (sidePrices_eraseQueue_subset hc.rep x _ hask)
    omega

theorem scanAsks (hc : Cancelling h b q id x) (hs : (h.order x).side = .ask)
    (hp : (h.order x).price = b.bestAsk)
    (he : eraseQueue q (h.order x).price x (h.order x).price = [])
    (hcount : (b.unlinkOrder h id x).2.askCount ≠ 0) :
    ∃ r, (b.unlinkOrder h id x).2.scanAsks (h.order x).price = some r ∧
      IsLeast (sidePrices h (eraseQueue q (h.order x).price x) .ask) r := by
  have hask := hc.mem_side hs
  apply scanAsks_isLeast (hc.nonempty_of_count .ask hcount)
  · intro r hr
    have hsub := sidePrices_eraseQueue_subset hc.rep x _ hr
    have hle := (hc.best.isLeast hask).2 hsub
    have hne := ne_price he hr
    exact ⟨by omega, (hc.rep.sidePrices_range hsub).2⟩
  · intro r hlt hmax
    apply hc.level_iff
    intro hbid
    have := hc.uncrossed r (sidePrices_eraseQueue_subset hc.rep x _ hbid) _ hask
    omega

/-- A price that survives the cancel on its own side stays the best of that side. -/
theorem mem_of_ne (hc : Cancelling h b q id x) {s : Side} {r : Int}
    (hr : r ∈ sidePrices h q s) (hne : r ≠ (h.order x).price) :
    r ∈ sidePrices h (eraseQueue q (h.order x).price x) s :=
  mem_sidePrices_eraseQueue hc.rep hne hr

theorem best_bid (hc : Cancelling h b q id x) (hs : (h.order x).side = .bid)
    (he : eraseQueue q (h.order x).price x (h.order x).price = []) :
    (sidePrices h (eraseQueue q (h.order x).price x) .bid = ∅ ∧
        ((b.unlinkOrder h id x).2.repairBest .bid (h.order x).price).bestBid = 0) ∨
      IsGreatest (sidePrices h (eraseQueue q (h.order x).price x) .bid)
        ((b.unlinkOrder h id x).2.repairBest .bid (h.order x).price).bestBid := by
  have hrep := hc.rep.unlinkOrder hc.lookup
  have hempty := (hrep.empty_iff (h.order x).price).2 he
  have hbest : (b.unlinkOrder h id x).2.bestBid = b.bestBid := by simp [OrderBook.unlinkOrder]
  simp only [OrderBook.repairBest, hempty, if_true, hbest, true_and]
  by_cases hp : (h.order x).price = b.bestBid
  · rw [if_pos hp]
    unfold OrderBook.updateBestBidAfterRemove
    split
    · rename_i hzero
      refine .inl ⟨?_, rfl⟩
      rw [← hc.sidePrices_eq]
      exact (hrep.sidePrices_eq_empty .bid).2 hzero
    · rename_i hcount
      obtain ⟨r, hscan, hg⟩ := hc.scanBids hs hp he hcount
      rw [hscan]
      exact .inr hg
  · rw [if_neg hp, if_neg (by simp), hbest]
    have hg := hc.best.isGreatest (hc.mem_side hs)
    exact .inr ⟨hc.mem_of_ne hg.1 (Ne.symm hp),
      fun r hr => hg.2 (sidePrices_eraseQueue_subset hc.rep x _ hr)⟩

theorem best_ask (hc : Cancelling h b q id x) (hs : (h.order x).side = .ask)
    (he : eraseQueue q (h.order x).price x (h.order x).price = []) :
    (sidePrices h (eraseQueue q (h.order x).price x) .ask = ∅ ∧
        ((b.unlinkOrder h id x).2.repairBest .ask (h.order x).price).bestAsk =
          maxPriceTicks - 1) ∨
      IsLeast (sidePrices h (eraseQueue q (h.order x).price x) .ask)
        ((b.unlinkOrder h id x).2.repairBest .ask (h.order x).price).bestAsk := by
  have hrep := hc.rep.unlinkOrder hc.lookup
  have hempty := (hrep.empty_iff (h.order x).price).2 he
  have hbest : (b.unlinkOrder h id x).2.bestAsk = b.bestAsk := by simp [OrderBook.unlinkOrder]
  simp only [OrderBook.repairBest, hempty, if_true, hbest, true_and, reduceCtorEq, false_and,
    if_false]
  by_cases hp : (h.order x).price = b.bestAsk
  · rw [if_pos hp]
    unfold OrderBook.updateBestAskAfterRemove
    split
    · rename_i hzero
      refine .inl ⟨?_, rfl⟩
      rw [← hc.sidePrices_eq]
      exact (hrep.sidePrices_eq_empty .ask).2 hzero
    · rename_i hcount
      obtain ⟨r, hscan, hg⟩ := hc.scanAsks hs hp he hcount
      rw [hscan]
      exact .inr hg
  · rw [if_neg hp, hbest]
    have hg := hc.best.isLeast (hc.mem_side hs)
    exact .inr ⟨hc.mem_of_ne hg.1 (Ne.symm hp),
      fun r hr => hg.2 (sidePrices_eraseQueue_subset hc.rep x _ hr)⟩

/-- Repairing one side leaves the cached best price of the other side alone. -/
theorem repair_other (b : OrderBook) (p : Int) :
    (b.repairBest .bid p).bestAsk = b.bestAsk ∧ (b.repairBest .ask p).bestBid = b.bestBid := by
  unfold OrderBook.repairBest OrderBook.updateBestBidAfterRemove
    OrderBook.updateBestAskAfterRemove
  constructor
  · split_ifs <;> try rfl
    · cases b.scanBids p <;> rfl
    · simp_all
    · simp_all
  · split_ifs <;> try rfl
    · simp_all
    · simp_all
    · cases b.scanAsks p <;> rfl

theorem bestExact (hc : Cancelling h b q id x) :
    BestExact (b.cancelOrder h id).1 (b.cancelOrder h id).2.1
      (eraseQueue q (h.order x).price x) := by
  have hrep := hc.rep.unlinkOrder hc.lookup
  have hbid : (b.unlinkOrder h id x).2.bestBid = b.bestBid := by simp [OrderBook.unlinkOrder]
  have hask : (b.unlinkOrder h id x).2.bestAsk = b.bestAsk := by simp [OrderBook.unlinkOrder]
  rw [BookRep.cancelOrder_eq hc.lookup]
  by_cases he : eraseQueue q (h.order x).price x (h.order x).price = []
  · -- the level was emptied: one side may lose a price, the other cannot
    cases hs : (h.order x).side with
    | bid =>
      refine ⟨?_, ?_⟩
      · rw [hc.sidePrices_eq]
        exact hc.best_bid hs he
      · rw [hc.sidePrices_eq, sidePrices_eraseQueue_eq hc.rep hc.uncrossed hc.linked
          (.inl (by simp [hs])), (repair_other _ _).1, hask]
        exact hc.best.ask
    | ask =>
      refine ⟨?_, ?_⟩
      · rw [hc.sidePrices_eq, sidePrices_eraseQueue_eq hc.rep hc.uncrossed hc.linked
          (.inl (by simp [hs])), (repair_other _ _).2, hbid]
        exact hc.best.bid
      · rw [hc.sidePrices_eq]
        exact hc.best_ask hs he
  · have hne : ((b.unlinkOrder h id x).2.levels (h.order x).price).empty = false := by
      rw [Bool.eq_false_iff, ne_eq, hrep.empty_iff]
      exact he
    have hsame : ∀ s, sidePrices (b.unlinkOrder h id x).1
        (eraseQueue q (h.order x).price x) s = sidePrices h q s := fun s => by
      rw [hc.sidePrices_eq, sidePrices_eraseQueue_eq hc.rep hc.uncrossed hc.linked (.inr he)]
    simp only [OrderBook.repairBest, hne, Bool.false_eq_true, if_false]
    exact ⟨by rw [hsame, hbid]; exact hc.best.bid, by rw [hsame, hask]; exact hc.best.ask⟩

theorem uncrossed_after (hc : Cancelling h b q id x) :
    Uncrossed (b.cancelOrder h id).1 (eraseQueue q (h.order x).price x) := by
  have hrel := hc.rep.cancelOrder_relinked hc.lookup
  intro p hp r hr
  rw [sidePrices_relinked hrel] at hp hr
  exact hc.uncrossed.eraseQueue hc.rep x p hp r hr

end Cancelling

end Best

end LockfreeMatching
