import LockfreeMatching.Core.OrderBook
import LockfreeMatching.Lib.Loop

/-!
# The matching engine

The engine owns the book and the order pool. An incoming order is matched level by level
against the opposite side, each level front to back, and a limit remainder rests.

The source loops carry no counter. Here each is a `Lib.loop` with one unit of fuel per unit
of quantity still to be executed, and `none` stands for a call that does not return. A
resting order never has zero remaining quantity, so every iteration executes at least one
unit and the fuel suffices in every reachable state: `process` is shown to return there.
-/
namespace LockfreeMatching

open Lib

/-- `MatchingEngine::ORDER_POOL_SIZE`. -/
@[irreducible] def orderPoolSize : Nat := 1000000

theorem orderPoolSize_eq : orderPoolSize = 1000000 := by
  unfold orderPoolSize
  rfl

structure MatchingEngine where
  book : OrderBook
  pool : MemoryPool Order
  fills : List Fill

namespace MatchingEngine

def new : MatchingEngine where
  book := {}
  pool := .new Order orderPoolSize
  fills := []

def heap (e : MatchingEngine) : Heap := e.pool.storage

def poolAvailable (e : MatchingEngine) : UInt64 := e.pool.available

/-- Execute against the oldest order of a level: one iteration of `fillLevel`. The fill
state is updated before the removal, so that the level subtracts a remainder of zero. -/
def fillFront (levelPrice : Int) (aggressiveId : OrderId) (aggressorSide : Side)
    (ts : Timestamp) (s : MatchingEngine × Quantity) : Option (MatchingEngine × Quantity) :=
  let e := s.1
  let level := e.book.levels levelPrice
  level.front.map fun passive =>
    let o := e.heap.order passive
    let qty := min s.2 o.remainingQuantity
    let o := { o with filledQuantity := o.filledQuantity + qty }
    let heap := e.heap.set passive o
    let book := { e.book with
      levels := Function.update e.book.levels levelPrice (level.reduceQuantity qty) }
    let fills := e.fills ++ [
      { aggressiveId
        passiveId := o.id
        price := levelPrice
        quantity := qty
        timestamp := ts
        aggressorSide }]
    if o.isFilled then
      let r := book.cancelOrder heap o.id
      ({ book := r.2.1
         pool := MemoryPool.deallocate { e.pool with storage := r.1 } passive
         fills }, s.2 - qty)
    else
      ({ book, pool := { e.pool with storage := heap }, fills }, s.2 - qty)

/-- The test of the level loop. -/
def levelOpen (levelPrice : Int) (s : MatchingEngine × Quantity) : Bool :=
  decide (0 < s.2) && !(s.1.book.levels levelPrice).empty

/-- Fill at one price level until the incoming order is satisfied or the level is empty. -/
def fillLevel (levelPrice : Int) (aggressiveId : OrderId) (aggressorSide : Side)
    (ts : Timestamp) (s : MatchingEngine × Quantity) : Option (MatchingEngine × Quantity) :=
  loop (levelOpen levelPrice) (fillFront levelPrice aggressiveId aggressorSide ts) s.2.toNat s

/-- The test of a matching loop: quantity left, liquidity left, and the best opposite price
not `beyond` the limit of the incoming order. -/
def crosses (has : OrderBook → Bool) (best : OrderBook → Int) (beyond : Int → Bool)
    (s : MatchingEngine × Quantity) : Bool :=
  decide (0 < s.2) && has s.1.book && !beyond (best s.1.book)

/-- The body of a matching loop: fill at the best opposite price. -/
def fillBest (best : OrderBook → Int) (msg : NewOrderMessage) (s : MatchingEngine × Quantity) :
    Option (MatchingEngine × Quantity) :=
  fillLevel (best s.1.book) msg.id msg.side msg.timestamp s

/-- Walk the opposite levels best price first. -/
def matchLoop (has : OrderBook → Bool) (best : OrderBook → Int) (beyond : Int → Bool)
    (msg : NewOrderMessage) (s : MatchingEngine × Quantity) :
    Option (MatchingEngine × Quantity) :=
  loop (crosses has best beyond) (fillBest best msg) s.2.toNat s

def isLimit (msg : NewOrderMessage) : Bool := decide (msg.type = .limit)

/-- Where a bid stops: asks dearer than its limit. -/
def aboveLimit (msg : NewOrderMessage) (p : Int) : Bool := isLimit msg && decide (msg.price < p)

/-- Where an ask stops: bids cheaper than its limit. -/
def belowLimit (msg : NewOrderMessage) (p : Int) : Bool := isLimit msg && decide (p < msg.price)

/-- Rest an unfilled limit remainder. An exhausted pool drops it, and so does a duplicate
id, after giving the slot back. -/
def restRemainder (e : MatchingEngine) (msg : NewOrderMessage) (remaining : Quantity) :
    MatchingEngine :=
  match e.pool.allocate with
  | (none, _) => e
  | (some p, pool) =>
    let o : Order :=
      { id := msg.id
        side := msg.side
        type := msg.type
        price := msg.price
        quantity := msg.quantity
        filledQuantity := msg.quantity - remaining
        timestamp := msg.timestamp }
    let r := e.book.addOrder (Heap.set pool.storage p o) p
    if r.2.2 then
      { e with book := r.2.1, pool := { pool with storage := r.1 } }
    else
      { e with book := r.2.1, pool := MemoryPool.deallocate { pool with storage := r.1 } p }

/-- Match, then rest any limit remainder. -/
def processNewOrder (e : MatchingEngine) (msg : NewOrderMessage) : Option MatchingEngine :=
  let e := { e with fills := [] }
  if msg.quantity = 0 then some e
  else if isLimit msg && (decide (msg.price < 0) || decide (maxPriceTicks ≤ msg.price)) then
    some e
  else
    let matched := match msg.side with
      | .bid => matchLoop OrderBook.hasAsks OrderBook.bestAsk (aboveLimit msg) msg
          (e, msg.quantity)
      | .ask => matchLoop OrderBook.hasBids OrderBook.bestBid (belowLimit msg) msg
          (e, msg.quantity)
    matched.map fun s =>
      if decide (0 < s.2) && isLimit msg then restRemainder s.1 msg s.2 else s.1

/-- Cancel by id; `false` if the id is unknown. -/
def processCancel (e : MatchingEngine) (msg : CancelMessage) : MatchingEngine × Bool :=
  match e.book.getOrder msg.id with
  | none => (e, false)
  | some p =>
    let r := e.book.cancelOrder e.heap msg.id
    ({ e with
        book := r.2.1
        pool := MemoryPool.deallocate { e.pool with storage := r.1 } p }, true)

/-- Dispatch on the message; the fills are left in `fills`. -/
def process (e : MatchingEngine) : EngineMessage → Option MatchingEngine
  | .newOrder msg => processNewOrder e msg
  | .cancel msg => some (processCancel { e with fills := [] } msg).1

end MatchingEngine

end LockfreeMatching
