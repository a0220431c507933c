import LockfreeMatching.Core.EngineRun

/-!
# Bids and asks are mirror images

Swapping the sides and reflecting prices at the middle of the price range turns every
engine state into another one. The source writes the two sides out separately (crossing
tests, best-price updates, rescans, sentinels), and this module shows that all of these
respect the reflection: a run on reflected messages is the reflected run, slot by slot.

Reading a cell that holds no order yields a fixed order, which the reflection would change,
so the lemmas about memory assume that what is read is live. The engine invariant supplies
that.

## Main results

* `cancelOrder_mirror`, `addOrder_mirror`: the book operations.
* `fillFront_mirror`, `matchLoop_mirror`: the matching loops.
* `run_process_mirror`: runs of the engine.
-/
namespace LockfreeMatching

open Lib

/-! ## Reflection -/

/-- The price as far from the top of the range as `p` is from its bottom. -/
def mirrorPrice (p : Int) : Int := maxPriceTicks - 1 - p

@[simp] theorem mirrorPrice_mirrorPrice (p : Int) : mirrorPrice (mirrorPrice p) = p := by
  simp [mirrorPrice]

theorem mirrorPrice_inj {p r : Int} : mirrorPrice p = mirrorPrice r ↔ p = r := by
  simp [mirrorPrice]

theorem mirrorPrice_lt {p r : Int} : mirrorPrice p < mirrorPrice r ↔ r < p := by
  simp only [mirrorPrice]
  omega

@[simp] theorem Side.opposite_opposite (s : Side) : s.opposite.opposite = s := by
  cases s <;> rfl

/-- A resting order of the other side. Every resting order is a limit order. -/
def Order.mirror (o : Order) : Order :=
  { o with side := o.side.opposite, price := mirrorPrice o.price }

def Cell.mirror : Cell Order → Cell Order
  | .object o => .object o.mirror
  | c => c

def Heap.mirror (h : Heap) : Heap := fun x => (h x).mirror

def OrderBook.mirror (b : OrderBook) : OrderBook where
  levels p := b.levels (mirrorPrice p)
  bestBid := mirrorPrice b.bestAsk
  bestAsk := mirrorPrice b.bestBid
  bidCount := b.askCount
  askCount := b.bidCount
  orderMap := b.orderMap

/-- The price of a market order is not looked at and stays. -/
def NewOrderMessage.mirror (msg : NewOrderMessage) : NewOrderMessage :=
  { msg with
    side := msg.side.opposite
    price := if msg.type = .limit then mirrorPrice msg.price else msg.price }

def EngineMessage.mirror : EngineMessage → EngineMessage
  | .newOrder msg => .newOrder msg.mirror
  | .cancel msg => .cancel msg

def FillMessage.mirror (f : FillMessage) : FillMessage :=
  { f with price := mirrorPrice f.price, aggressorSide := f.aggressorSide.opposite }

def MemoryPool.mirror (m : MemoryPool Order) : MemoryPool Order :=
  { m with storage := Heap.mirror m.storage }

def MatchingEngine.mirror (e : MatchingEngine) : MatchingEngine where
  book := e.book.mirror
  pool := e.pool.mirror
  fills := e.fills.map FillMessage.mirror

/-! ## Memory -/

theorem Heap.order_mirror {h : Heap} {x : Ptr} (hx : h.Live x) :
    h.mirror.order x = (h.order x).mirror := by
  obtain ⟨o, ho⟩ := hx
  simp [Heap.mirror, Heap.order, ho, Cell.mirror, Cell.value]

theorem Heap.set_mirror (h : Heap) (x : Ptr) (o : Order) :
    h.mirror.set x o.mirror = (h.set x o).mirror := by
  funext y
  by_cases hy : y = x
  · subst hy
    simp [Heap.set, Heap.mirror, Cell.mirror]
  · simp [Heap.set, Heap.mirror, hy]

theorem Heap.setPrev_mirror {h : Heap} {x : Ptr} (hx : h.Live x) (v : Option Ptr) :
    h.mirror.setPrev x v = (h.setPrev x v).mirror := by
  rw [Heap.setPrev, Heap.order_mirror hx, Heap.setPrev, ← Heap.set_mirror]
  rfl

theorem Heap.setNext_mirror {h : Heap} {x : Ptr} (hx : h.Live x) (v : Option Ptr) :
    h.mirror.setNext x v = (h.setNext x v).mirror := by
  rw [Heap.setNext, Heap.order_mirror hx, Heap.setNext, ← Heap.set_mirror]
  rfl

theorem Heap.Live.set {h : Heap} {x y : Ptr} (hy : h.Live y) (o : Order) :
    (h.set x o).Live y := by
  by_cases hyx : y = x
  · subst hyx
    exact ⟨o, Function.update_self ..⟩
  · obtain ⟨a, ha⟩ := hy
    exact ⟨a, by rw [Heap.set, Function.update_of_ne hyx, ha]⟩

theorem MemoryPool.allocate_mirror (m : MemoryPool Order) :
    m.mirror.allocate = (m.allocate.1, m.allocate.2.mirror) := by
  have hlink : ∀ c : Cell Order, c.mirror.link = c.link := fun c => by cases c <;> rfl
  cases hh : m.freeHead with
  | none => simp only [MemoryPool.allocate, MemoryPool.mirror, hh]
  | some x => simp only [MemoryPool.allocate, MemoryPool.mirror, hh, Heap.mirror, hlink]

theorem MemoryPool.deallocate_mirror (m : MemoryPool Order) (x : Ptr) :
    m.mirror.deallocate x = (m.deallocate x).mirror := by
  have hstorage : Function.update (Heap.mirror m.storage) x (.node m.freeHead) =
      Heap.mirror (Function.update m.storage x (.node m.freeHead)) := by
    funext y
    by_cases hy : y = x
    · subst hy
      simp [Heap.mirror, Cell.mirror]
    · simp [Heap.mirror, hy]
  simp only [MemoryPool.deallocate, MemoryPool.mirror, hstorage]

/-! ## Price levels -/

theorem Heap.Live.setPrev {h : Heap} {x y : Ptr} (hy : h.Live y) (v : Option Ptr) :
    (h.setPrev x v).Live y := hy.set _

theorem Heap.Live.setNext {h : Heap} {x y : Ptr} (hy : h.Live y) (v : Option Ptr) :
    (h.setNext x v).Live y := hy.set _

theorem Order.remainingQuantity_mirror (o : Order) :
    o.mirror.remainingQuantity = o.remainingQuantity := rfl

theorem PriceLevel.pushBack_mirror {h : Heap} (lv : PriceLevel) {p : Ptr} (hp : h.Live p)
    (ht : ∀ t, lv.tail = some t → h.Live t) :
    lv.pushBack h.mirror p = ((lv.pushBack h p).1.mirror, (lv.pushBack h p).2) := by
  have hp' := (hp.setPrev (x := p) lv.tail).setNext (x := p) none
  have hbase : (h.mirror.setPrev p lv.tail).setNext p none =
      ((h.setPrev p lv.tail).setNext p none).mirror := by
    rw [Heap.setPrev_mirror hp, Heap.setNext_mirror (hp.setPrev _)]
  simp only [PriceLevel.pushBack, hbase]
  cases htail : lv.tail with
  | none =>
    rw [htail] at hp'
    simp only [Heap.order_mirror hp', Order.remainingQuantity_mirror]
  | some t =>
    have hlive := ((ht t htail).setPrev (x := p) lv.tail).setNext (x := p) none
    rw [htail] at hp' hlive
    simp only [Heap.setNext_mirror hlive, Heap.order_mirror (hp'.setNext _),
      Order.remainingQuantity_mirror]

theorem bypassNext_mirror {h : Heap} (lv : PriceLevel) {p : Ptr} (hp : h.Live p)
    (hprev : ∀ y, (h.order p).prev = some y → h.Live y) :
    bypassNext h.mirror lv p = ((bypassNext h lv p).1.mirror, (bypassNext h lv p).2) := by
  unfold bypassNext
  rw [Heap.order_mirror hp]
  simp only [Order.mirror]
  cases hy : (h.order p).prev with
  | none => rfl
  | some y => simp only [Heap.setNext_mirror (hprev y hy)]

theorem bypassPrev_mirror {h : Heap} (lv : PriceLevel) {p : Ptr} (hp : h.Live p)
    (hnext : ∀ z, (h.order p).next = some z → h.Live z) :
    bypassPrev h.mirror lv p = ((bypassPrev h lv p).1.mirror, (bypassPrev h lv p).2) := by
  unfold bypassPrev
  rw [Heap.order_mirror hp]
  simp only [Order.mirror]
  cases hz : (h.order p).next with
  | none => rfl
  | some z => simp only [Heap.setPrev_mirror (hnext z hz)]

theorem Heap.Live.bypassNext {h : Heap} {y : Ptr} (hy : h.Live y) (lv : PriceLevel) (p : Ptr) :
    (bypassNext h lv p).1.Live y := by
  unfold LockfreeMatching.bypassNext
  split
  · exact hy.setNext _
  · exact hy

theorem Heap.Live.bypassPrev {h : Heap} {y : Ptr} (hy : h.Live y) (lv : PriceLevel) (p : Ptr) :
    (bypassPrev h lv p).1.Live y := by
  unfold LockfreeMatching.bypassPrev
  split
  · exact hy.setPrev _
  · exact hy

/-- Unlinking a queued order touches only queued orders. -/
theorem LevelRep.remove_mirror {h : Heap} {lv : PriceLevel} {l : List Ptr} {p : Ptr}
    (hr : LevelRep h lv l) (hlive : ∀ y ∈ l, h.Live y) (hp : p ∈ l) :
    lv.remove h.mirror p = ((lv.remove h p).1.mirror, (lv.remove h p).2) := by
  obtain ⟨l₁, l₂, rfl⟩ := List.append_of_mem hp
  obtain ⟨hprev, hnext⟩ := hr.links.links
  have hself := hr.links.prev_ne
  have hpl := hlive p hp
  have hprev' : ∀ y, (h.order p).prev = some y → h.Live y := by
    intro y hy
    apply hlive
    have := List.mem_of_getLast? (hprev.symm.trans hy)
    simp [this]
  have hnext' : ∀ z, ((bypassNext h lv p).1.order p).next = some z →
      (bypassNext h lv p).1.Live z := by
    intro z hz
    have hz' : (h.order p).next = some z := by
      unfold bypassNext at hz
      cases hy : (h.order p).prev with
      | none => simpa [hy] using hz
      | some y =>
        have hpy : p ≠ y := by
          rintro rfl
          exact hself hy
        simpa [hy, Heap.setNext, hpy] using hz
    apply Heap.Live.bypassNext
    apply hlive
    have := List.mem_of_head? (hnext.symm.trans hz')
    simp [this]
  have ha := bypassNext_mirror lv hpl hprev'
  have hb := bypassPrev_mirror (bypassNext h lv p).2 (hpl.bypassNext lv p) hnext'
  have hp' := (hpl.bypassNext lv p).bypassPrev (bypassNext h lv p).2 p
  rw [remove_eq, remove_eq, ha]
  simp only
  rw [hb]
  simp only [Heap.setPrev_mirror hp', Heap.setNext_mirror (hp'.setPrev none),
    Heap.order_mirror ((hp'.setPrev none).setNext none), Order.remainingQuantity_mirror]

/-! ## The order book -/

namespace OrderBook

theorem levels_mirror_update (levels : Int → PriceLevel) (p : Int) (lv : PriceLevel) :
    Function.update (fun r => levels (mirrorPrice r)) (mirrorPrice p) lv =
      fun r => Function.update levels p lv (mirrorPrice r) := by
  funext r
  by_cases hr : r = mirrorPrice p
  · subst hr
    simp
  · have hr' : mirrorPrice r ≠ p := by
      rintro rfl
      simp at hr
    simp [hr, hr']

theorem noteAdded_mirror (b : OrderBook) (s : Side) (p : Int) :
    b.mirror.noteAdded s.opposite (mirrorPrice p) = (b.noteAdded s p).mirror := by
  cases s with
  | bid =>
    simp only [noteAdded, Side.opposite, mirror, mirrorPrice_lt, mk.injEq, true_and, and_true]
    split_ifs <;> rfl
  | ask =>
    simp only [noteAdded, Side.opposite, mirror, mirrorPrice_lt, mk.injEq, true_and, and_true]
    split_ifs <;> rfl

theorem noteRemoved_mirror (b : OrderBook) (s : Side) :
    b.mirror.noteRemoved s.opposite = (b.noteRemoved s).mirror := by cases s <;> rfl

/-- The two rescans visit reflected prices in the same order. -/
theorem scanDown_mirror (levels : Int → PriceLevel) (n : Nat) :
    scanDown (fun p => levels (mirrorPrice p)) n =
      (scanUp levels n (maxPriceTicks - n)).map mirrorPrice := by
  induction n with
  | zero => rfl
  | succ n ih =>
    have hfirst : maxPriceTicks - ((n + 1 : Nat) : Int) = mirrorPrice n := by
      simp only [mirrorPrice]
      omega
    have hnext : mirrorPrice n + 1 = maxPriceTicks - n := by
      simp only [mirrorPrice]
      omega
    rw [scanDown, scanUp, hfirst, hnext, ih]
    split_ifs <;> simp

theorem scanUp_mirror (levels : Int → PriceLevel) (n : Nat) :
    scanUp (fun p => levels (mirrorPrice p)) n (maxPriceTicks - n) =
      (scanDown levels n).map mirrorPrice := by
  have h := scanDown_mirror (fun p => levels (mirrorPrice p)) n
  simp only [mirrorPrice_mirrorPrice] at h
  rw [h, Option.map_map]
  simp [Function.comp_def]

theorem updateBestBid_mirror (b : OrderBook) {r : Int} (hr : r < maxPriceTicks) :
    b.mirror.updateBestBidAfterRemove (mirrorPrice r) =
      (b.updateBestAskAfterRemove r).mirror := by
  have hscan : b.mirror.scanBids (mirrorPrice r) = (b.scanAsks r).map mirrorPrice := by
    have hlen : maxPriceTicks - ((mirrorPrice r).toNat : Int) = r + 1 := by
      simp only [mirrorPrice]
      omega
    have hcount : (mirrorPrice r).toNat = (maxPriceTicks - (r + 1)).toNat := by
      simp only [mirrorPrice]
      omega
    rw [scanBids, mirror, scanDown_mirror, hlen, hcount]
    rfl
  unfold updateBestBidAfterRemove updateBestAskAfterRemove
  rw [hscan, show b.mirror.bidCount = b.askCount from rfl]
  split_ifs
  · simp [mirror, mirrorPrice]
  · cases b.scanAsks r <;> rfl

theorem updateBestAsk_mirror (b : OrderBook) {r : Int} (hr : 0 ≤ r) :
    b.mirror.updateBestAskAfterRemove (mirrorPrice r) =
      (b.updateBestBidAfterRemove r).mirror := by
  have hscan : b.mirror.scanAsks (mirrorPrice r) = (b.scanBids r).map mirrorPrice := by
    have hfirst : mirrorPrice r + 1 = maxPriceTicks - (r.toNat : Int) := by
      simp only [mirrorPrice]
      omega
    have hcount : (maxPriceTicks - (maxPriceTicks - (r.toNat : Int))).toNat = r.toNat := by omega
    rw [scanAsks, hfirst, hcount, mirror, scanUp_mirror]
    rfl
  unfold updateBestBidAfterRemove updateBestAskAfterRemove
  rw [hscan, show b.mirror.askCount = b.bidCount from rfl]
  split_ifs
  · simp [mirror, mirrorPrice]
  · cases b.scanBids r <;> rfl

theorem repairBest_mirror (b : OrderBook) (s : Side) {p : Int}
    (hp : 0 ≤ p ∧ p < maxPriceTicks) :
    b.mirror.repairBest s.opposite (mirrorPrice p) = (b.repairBest s p).mirror := by
  have hlevel : b.mirror.levels (mirrorPrice p) = b.levels p := by simp [mirror]
  unfold repairBest
  rw [hlevel]
  by_cases he : (b.levels p).empty
  · rw [if_pos he, if_pos he]
    cases s with
    | bid =>
      simp only [Side.opposite, reduceCtorEq, false_and, if_false, true_and,
        updateBestAsk_mirror b hp.1]
      rw [show b.mirror.bestAsk = mirrorPrice b.bestBid from rfl]
      simp only [mirrorPrice_inj]
      split_ifs <;> rfl
    | ask =>
      simp only [Side.opposite, reduceCtorEq, false_and, if_false, true_and,
        updateBestBid_mirror b hp.2]
      rw [show b.mirror.bestBid = mirrorPrice b.bestAsk from rfl]
      simp only [mirrorPrice_inj]
      split_ifs <;> rfl
  · rw [if_neg he, if_neg he]

end OrderBook

/-- Cancelling a resting order. -/
theorem BookRep.cancelOrder_mirror {h : Heap} {b : OrderBook} {q : Int → List Ptr}
    (hr : BookRep h b q) {id : OrderId} {x : Ptr} (hm : b.orderMap id = some x) :
    b.mirror.cancelOrder h.mirror id =
      ((b.cancelOrder h id).1.mirror, (b.cancelOrder h id).2.1.mirror, true) := by
  obtain ⟨hx, -⟩ := (hr.map id x).1 hm
  have hlive := hr.live _ x hx
  have hremove := (hr.level (h.order x).price).remove_mirror (hr.live _) hx
  have hlevel : b.mirror.levels (mirrorPrice (h.order x).price) = b.levels (h.order x).price := by
    simp [OrderBook.mirror]
  have hm' : b.mirror.orderMap id = some x := hm
  have hunlink : b.mirror.unlinkOrder h.mirror id x =
      ((b.unlinkOrder h id x).1.mirror, (b.unlinkOrder h id x).2.mirror) := by
    simp only [OrderBook.unlinkOrder, Heap.order_mirror hlive, Order.mirror, hlevel, hremove]
    rw [← OrderBook.noteRemoved_mirror]
    simp only [OrderBook.mirror, OrderBook.levels_mirror_update]
  simp only [OrderBook.cancelOrder, hm, hm', hunlink, Heap.order_mirror hlive, Order.mirror,
    OrderBook.repairBest_mirror _ _ (hr.range _ x hx)]

/-- Resting a constructed order. -/
theorem BookRep.addOrder_mirror {h : Heap} {b : OrderBook} {q : Int → List Ptr}
    (hr : BookRep h b q) {x : Ptr} (hx : h.Live x) :
    b.mirror.addOrder h.mirror x =
      ((b.addOrder h x).1.mirror, (b.addOrder h x).2.1.mirror, (b.addOrder h x).2.2) := by
  have hprice : (mirrorPrice (h.order x).price < 0 ∨
      maxPriceTicks ≤ mirrorPrice (h.order x).price) ↔
      ((h.order x).price < 0 ∨ maxPriceTicks ≤ (h.order x).price) := by
    simp only [mirrorPrice]
    omega
  have hlevel : b.mirror.levels (mirrorPrice (h.order x).price) = b.levels (h.order x).price := by
    simp [OrderBook.mirror]
  have hpush := PriceLevel.pushBack_mirror (b.levels (h.order x).price) hx fun t ht =>
    hr.live _ t (List.mem_of_getLast? ((hr.level _).links.tail.symm.trans ht))
  have hm : b.mirror.orderMap = b.orderMap := rfl
  simp only [OrderBook.addOrder, Heap.order_mirror hx, Order.mirror, hprice, hlevel, hpush, hm]
  split_ifs
  · rfl
  · cases b.orderMap (h.order x).id with
    | some y => rfl
    | none =>
      simp only
      rw [← OrderBook.noteAdded_mirror]
      simp only [OrderBook.mirror, OrderBook.levels_mirror_update]

/-! ## Executing and resting -/

namespace EngineRep

variable {e : MatchingEngine} {q : Int → List Ptr} {free : List Ptr} {x : Ptr}

theorem releaseOrder_mirror (he : EngineRep e q free) {id : OrderId}
    (hm : e.book.orderMap id = some x) :
    releaseOrder e.mirror id x = (releaseOrder e id x).mirror := by
  have hcancel : e.mirror.book.cancelOrder e.mirror.heap id = _ := he.rep.cancelOrder_mirror hm
  simp only [releaseOrder, hcancel]
  simp only [MatchingEngine.mirror, ← MemoryPool.deallocate_mirror]
  rfl

theorem fillOrder_mirror (p : Int) (qty : Quantity) (hx : e.heap.Live x) :
    fillOrder e.mirror (mirrorPrice p) x qty = (fillOrder e p x qty).mirror := by
  have hset : e.mirror.heap.set x (executed (e.mirror.heap.order x) qty) =
      Heap.mirror (e.heap.set x (executed (e.heap.order x) qty)) := by
    rw [← Heap.set_mirror, show e.mirror.heap = e.heap.mirror from rfl, Heap.order_mirror hx]
    rfl
  have hlevels : reduceLevel e.mirror.book (mirrorPrice p) qty =
      (reduceLevel e.book p qty).mirror := by
    simp only [reduceLevel, MatchingEngine.mirror, OrderBook.mirror, mirrorPrice_mirrorPrice,
      OrderBook.levels_mirror_update]
  simp only [fillOrder, hset, hlevels]
  rfl

end EngineRep

namespace EngineInv

variable {e : MatchingEngine} {q : Int → List Ptr} {free : List Ptr} {x : Ptr}

theorem executeOrder_mirror (he : EngineRep e q free) {p : Int} {qty : Quantity} (hx : x ∈ q p)
    (ho : FilledBy e.heap x (executed (e.heap.order x) qty) qty) :
    executeOrder e.mirror (mirrorPrice p) x qty = (executeOrder e p x qty).mirror := by
  have hlive := he.rep.live p x hx
  obtain ⟨-, hm⟩ := fillOrder_lookup he hx ho
  have hrelease := (he.fill hx ho).releaseOrder_mirror hm
  rw [← EngineRep.fillOrder_mirror p qty hlive] at hrelease
  unfold executeOrder
  rw [show e.mirror.heap = e.heap.mirror from rfl, Heap.order_mirror hlive,
    show (executed (e.heap.order x).mirror qty).isFilled =
      (executed (e.heap.order x) qty).isFilled from rfl]
  split_ifs
  · exact hrelease
  · exact EngineRep.fillOrder_mirror p qty hlive

/-- One iteration of the level loop. -/
theorem fillFront_mirror {s : MatchingEngine × Quantity} (he : EngineInv s.1 q free) (p : Int)
    (id : OrderId) (side : Side) (ts : Timestamp) :
    MatchingEngine.fillFront (mirrorPrice p) id side.opposite ts (s.1.mirror, s.2) =
      (MatchingEngine.fillFront p id side ts s).map fun t => (t.1.mirror, t.2) := by
  obtain ⟨e, rem⟩ := s
  have hlevel : e.mirror.book.levels (mirrorPrice p) = e.book.levels p := by
    simp [MatchingEngine.mirror, OrderBook.mirror]
  cases hfront : (e.book.levels p).front with
  | none => simp [MatchingEngine.fillFront, hlevel, hfront]
  | some x =>
    have hx : x ∈ q p := List.mem_of_head? ((he.rep.level p).front_eq.symm.trans hfront)
    have hread : e.mirror.heap.order x = (e.heap.order x).mirror :=
      Heap.order_mirror (he.rep.live p x hx)
    rw [fillFront_eq hfront, fillFront_eq (e := e.mirror) (hlevel ▸ hfront), hread]
    simp only [Order.remainingQuantity_mirror, Option.map_some]
    generalize hqty : min rem (e.heap.order x).remainingQuantity = qty
    have hle : qty ≤ (e.heap.order x).remainingQuantity := hqty ▸ quantity_min_le _ _
    have hfill : fillAgainst e.mirror (mirrorPrice p) id side.opposite ts x qty =
        (fillAgainst e p id side ts x qty).mirror := by
      simp only [fillAgainst, hread]
      rfl
    have hexec := executeOrder_mirror
      (he.withFills (e.fills ++ [fillAgainst e p id side ts x qty])).toEngineRep hx
      (FilledBy.executed e.heap (he.isOpen p x hx).2 hle)
    simp only [MatchingEngine.mirror, List.map_append, List.map_cons, List.map_nil] at hexec
    rw [hfill]
    exact congrArg some (Prod.ext hexec rfl)

/-- Resting a limit remainder. -/
theorem restRemainder_mirror (he : EngineInv e q free) {msg : NewOrderMessage}
    (hlimit : msg.type = .limit) (rem : Quantity) :
    e.mirror.restRemainder msg.mirror rem = (e.restRemainder msg rem).mirror := by
  have halloc : e.mirror.pool.allocate = _ := e.pool.allocate_mirror
  unfold MatchingEngine.restRemainder
  rw [halloc]
  cases free with
  | nil => simp only [he.pool.allocate_nil]
  | cons x free =>
    obtain ⟨pool, hpool, hstorage, -⟩ := construct he.toEngineRep (remainderOrder msg rem)
    obtain ⟨hbook, -, -⟩ := set_free he.toEngineRep (remainderOrder msg rem)
    have hadd := hbook.addOrder_mirror (x := x) ⟨_, Function.update_self ..⟩
    have hset : Heap.set pool.mirror.storage x (remainderOrder msg.mirror rem) =
        Heap.mirror (e.heap.set x (remainderOrder msg rem)) := by
      rw [← Heap.set_mirror, MemoryPool.mirror, hstorage]
      congr 1
      simp [remainderOrder, NewOrderMessage.mirror, Order.mirror, hlimit]
    have hbook' : e.mirror.book = e.book.mirror := rfl
    simp only [remainderOrder] at hset hadd
    simp only [hpool, hset, hbook', hadd, hstorage]
    split_ifs
    · rfl
    · simp only [MatchingEngine.mirror, ← MemoryPool.deallocate_mirror]
      rfl

end EngineInv

/-! ## Matching -/

/-- A state of the matching loops, reflected. -/
def mirrorState (s : MatchingEngine × Quantity) : MatchingEngine × Quantity := (s.1.mirror, s.2)

theorem OrderBook.has_mirror (s : Side) (b : OrderBook) : has s b.mirror = has s.opposite b := by
  cases s <;> rfl

theorem OrderBook.best_mirror (s : Side) (b : OrderBook) :
    best s b.mirror = mirrorPrice (best s.opposite b) := by cases s <;> rfl

theorem before_mirror (s : Side) (a b : Int) :
    before s.opposite (mirrorPrice a) (mirrorPrice b) ↔ before s a b := by
  cases s <;> simp only [before, Side.opposite, mirrorPrice] <;> omega

theorem beyondLimit_mirror (msg : NewOrderMessage) (p : Int) :
    beyondLimit msg.mirror (mirrorPrice p) = beyondLimit msg p := by
  cases htype : msg.type with
  | market => simp [beyondLimit, NewOrderMessage.mirror, htype]
  | limit =>
    have := before_mirror msg.side.opposite p msg.price
    simp only [Side.opposite_opposite] at this
    simp [beyondLimit, NewOrderMessage.mirror, htype, this]

theorem ignored_mirror (msg : NewOrderMessage) :
    RefBook.ignored msg.mirror ↔ RefBook.ignored msg := by
  unfold RefBook.ignored
  refine or_congr_right (and_congr_right fun hlimit => not_congr ?_)
  have hlimit : msg.type = .limit := hlimit
  simp only [NewOrderMessage.mirror, hlimit, if_true, mirrorPrice]
  omega

theorem levelOpen_mirror (p : Int) (s : MatchingEngine × Quantity) :
    MatchingEngine.levelOpen (mirrorPrice p) (mirrorState s) = MatchingEngine.levelOpen p s := by
  have hlevel : (mirrorState s).1.book.levels (mirrorPrice p) = s.1.book.levels p := by
    simp [mirrorState, MatchingEngine.mirror, OrderBook.mirror]
  rw [MatchingEngine.levelOpen, hlevel]
  rfl

theorem crosses_mirror (msg : NewOrderMessage) (s : MatchingEngine × Quantity) :
    continues msg.mirror (mirrorState s) = continues msg s := by
  have hside : msg.mirror.side.opposite = msg.side := Side.opposite_opposite _
  have hbook : (mirrorState s).1.book = s.1.book.mirror := rfl
  rw [continues_eq, continues_eq, hside]
  unfold MatchingEngine.crosses
  rw [hbook, OrderBook.has_mirror, OrderBook.best_mirror, beyondLimit_mirror]
  rfl

namespace Matching

variable {msg : NewOrderMessage} {ref : RefBook} {s : MatchingEngine × Quantity}
  {q : Int → List Ptr} {free : List Ptr} {side : List Resting}
  {takes : List (Resting × Quantity)}

/-- The level loop at the best opposite price. -/
theorem fillLevel_mirror (hm : Matching msg ref s q free side takes) {p : Int}
    (hb : AtBest msg p s.1.heap q) :
    MatchingEngine.fillLevel (mirrorPrice p) msg.id msg.side.opposite msg.timestamp
      (mirrorState s) =
      (MatchingEngine.fillLevel p msg.id msg.side msg.timestamp s).map mirrorState := by
  refine loop_map mirrorState (fun t => ∃ q free side takes,
    Matching msg ref t q free side takes ∧ AtBest msg p t.1.heap q)
    (fun t _ => levelOpen_mirror p t) ?_ ?_ _ ⟨q, free, side, takes, hm, hb⟩
  · rintro t ⟨q', free', side', takes', hm', -⟩ -
    exact hm'.inv.fillFront_mirror p msg.id msg.side msg.timestamp
  · rintro t u ⟨q', free', side', takes', hm', hb'⟩ hopen hstep
    obtain ⟨hpos, hlevel⟩ := levelOpen_iff.1 hopen
    obtain ⟨x, l, hq⟩ := hm'.inv.rep.exists_cons hlevel
    obtain ⟨u', q'', free'', side'', takes'', hstep', hm'', hb'', -⟩ := hm'.fillFront hb' hq hpos
    obtain rfl := Option.some.inj (hstep'.symm.trans hstep)
    exact ⟨q'', free'', side'', takes'', hm'', hb''⟩

/-- The outer loop. -/
theorem matchLoop_mirror (hm : Matching msg ref s q free side takes) (n : Nat) :
    loop (continues msg.mirror) (MatchingEngine.fillBest (oppositeBest msg.mirror) msg.mirror) n
      (mirrorState s) =
      (loop (continues msg) (MatchingEngine.fillBest (oppositeBest msg) msg) n s).map
        mirrorState := by
  have hbest : ∀ t : MatchingEngine × Quantity, oppositeBest msg.mirror (mirrorState t).1.book =
      mirrorPrice (oppositeBest msg t.1.book) := by
    intro t
    have hside : msg.mirror.side.opposite = msg.side := Side.opposite_opposite _
    rw [oppositeBest_eq, oppositeBest_eq, hside]
    exact OrderBook.best_mirror _ _
  refine loop_map mirrorState (fun t => ∃ q free side takes,
    Matching msg ref t q free side takes) (fun t _ => crosses_mirror msg t) ?_ ?_ n
    ⟨q, free, side, takes, hm⟩
  · rintro t ⟨q', free', side', takes', hm'⟩ hc
    obtain ⟨-, -, hb⟩ := hm'.atBest (continues_eq msg ▸ hc)
    rw [← oppositeBest_eq] at hb
    unfold MatchingEngine.fillBest
    rw [hbest]
    exact hm'.fillLevel_mirror hb
  · rintro t u ⟨q', free', side', takes', hm'⟩ hc hstep
    obtain ⟨hpos, hne, hb⟩ := hm'.atBest (continues_eq msg ▸ hc)
    rw [← oppositeBest_eq] at hne hb
    obtain ⟨u', q'', free'', side'', takes'', hstep', hm'', -⟩ := hm'.fillLevel hb hne hpos
    obtain rfl := Option.some.inj (hstep'.symm.trans hstep)
    exact ⟨q'', free'', side'', takes'', hm''⟩

end Matching

/-! ## Messages and runs -/

theorem Simulates.processNewOrder_mirror {e : MatchingEngine} {ref : RefBook}
    (hsim : Simulates e ref) (msg : NewOrderMessage) :
    e.mirror.processNewOrder msg.mirror =
      (e.processNewOrder msg).map MatchingEngine.mirror := by
  obtain ⟨q, free, he, hv⟩ := hsim
  rw [processNewOrder_eq, processNewOrder_eq]
  simp only [ignored_mirror]
  split_ifs with hign
  · rfl
  · have hstart := Matching.start msg he hv
    have hloop := hstart.matchLoop_mirror msg.quantity.toNat
    rw [continues_eq, continues_eq, oppositeBest_eq, oppositeBest_eq] at hloop
    obtain ⟨t, q', free', side, takes, hmatched, hm, -⟩ := hstart.matchLoop
    have hmatched' : MatchingEngine.matchLoop (OrderBook.has msg.mirror.side.opposite)
        (OrderBook.best msg.mirror.side.opposite) (beyondLimit msg.mirror) msg.mirror
        ({ e.mirror with fills := [] }, msg.mirror.quantity) = some (mirrorState t) := by
      refine hloop.trans ?_
      rw [show loop _ _ msg.quantity.toNat ({ e with fills := [] }, msg.quantity) = some t from
        hmatched]
      rfl
    rw [hmatched, hmatched']
    simp only [Option.map_some, mirrorState]
    have htype : msg.mirror.type = msg.type := rfl
    rw [htype]
    split_ifs with hrest
    · rw [hm.inv.restRemainder_mirror hrest.2]
    · rfl

theorem EngineInv.processCancel_mirror {e : MatchingEngine} {q : Int → List Ptr}
    {free : List Ptr} (he : EngineInv e q free) (msg : CancelMessage) :
    (e.mirror.processCancel msg).1 = (e.processCancel msg).1.mirror := by
  have hlookup : e.mirror.book.getOrder msg.id = e.book.getOrder msg.id := rfl
  unfold MatchingEngine.processCancel
  rw [hlookup]
  cases hm : e.book.getOrder msg.id with
  | none => rfl
  | some x => exact he.toEngineRep.releaseOrder_mirror hm

theorem Simulates.process_mirror {e : MatchingEngine} {ref : RefBook} (hsim : Simulates e ref)
    (msg : EngineMessage) :
    e.mirror.process msg.mirror = (e.process msg).map MatchingEngine.mirror := by
  cases msg with
  | newOrder msg => exact hsim.processNewOrder_mirror msg
  | cancel msg =>
    obtain ⟨q, free, he, -⟩ := hsim
    exact congrArg some ((he.withFills []).processCancel_mirror msg)

/-- A fresh pool holds no orders. -/
theorem MemoryPool.linkSlots_mirror (n : Nat) (m : MemoryPool Order) :
    linkSlots n m.mirror = (linkSlots n m).mirror := by
  induction n generalizing m with
  | zero => rfl
  | succ n ih =>
    rw [linkSlots, linkSlots, ← ih]
    congr 1
    simp only [MemoryPool.mirror, mk.injEq, and_true]
    funext y
    by_cases hy : y = slotPtr n
    · subst hy
      simp [Heap.mirror, Cell.mirror]
    · simp [Heap.mirror, hy]

theorem MatchingEngine.new_mirror : MatchingEngine.new.mirror = .new := by
  have hpool : (MemoryPool.new Order orderPoolSize).mirror = .new Order orderPoolSize :=
    (MemoryPool.linkSlots_mirror _ _).symm
  simp only [MatchingEngine.mirror, MatchingEngine.new, hpool, List.map_nil]
  rfl

theorem Simulates.run_mirror {e : MatchingEngine} {ref : RefBook} (hsim : Simulates e ref)
    (msgs : List EngineMessage) :
    e.mirror.run (msgs.map EngineMessage.mirror) = (e.run msgs).map MatchingEngine.mirror := by
  induction msgs generalizing e ref with
  | nil => rfl
  | cons msg msgs ih =>
    obtain ⟨e₁, hstep, -, hsim₁⟩ := process_simulates hsim msg
    simp only [List.map_cons, MatchingEngine.run, hsim.process_mirror, hstep, Option.map_some,
      Option.bind_some]
    exact ih hsim₁

/-- After any messages and one more, the engine that was fed the reflected messages is the
reflection of the other: the fills of the last message, the book and even the slots. -/
theorem run_process_mirror (msgs : List EngineMessage) (msg : EngineMessage) :
    ∃ e e', MatchingEngine.new.run msgs = some e ∧ e.process msg = some e' ∧
      MatchingEngine.new.run (msgs.map EngineMessage.mirror) = some e.mirror ∧
      e.mirror.process msg.mirror = some e'.mirror := by
  obtain ⟨e, hrun, hsim⟩ := Simulates.new.run msgs
  obtain ⟨e', hstep, -, -⟩ := process_simulates hsim msg
  have hmirror := Simulates.new.run_mirror msgs
  rw [MatchingEngine.new_mirror, hrun] at hmirror
  refine ⟨e, e', hrun, hstep, hmirror, ?_⟩
  rw [hsim.process_mirror, hstep]
  rfl

end LockfreeMatching
