import LockfreeMatching.Core.Types
import LockfreeMatching.Lib.Loop
import LockfreeMatching.Lib.OrderedMap

/-!
# The baseline engine of the benchmarks

The order book as one would write it first: per side an ordered map from prices to lists of
orders, best price first, and an index from ids to list positions. It mirrors the matching
semantics of `MatchingEngine` with none of its machinery and is only used to compare
against.

A list iterator stays valid while its node is in the list, wherever the node moves. Nodes
therefore carry an address, every `push_back` takes a new one, and an iterator is the
address of its node. Using an end iterator or one that is not in the list is undefined in
the source and `none` here, as is a loop that does not end.
-/
namespace LockfreeMatching

open Lib

/-- A list node holding a resting order. -/
structure RestingOrder where
  node : Nat
  id : OrderId
  qty : Quantity
  deriving DecidableEq, Repr

abbrev Level := List RestingOrder

/-- The key order of one side: ascending for asks, descending for bids. -/
def ahead : Side → Int → Int → Prop
  | .ask, a, b => a < b
  | .bid, a, b => b < a

instance (s : Side) : DecidableRel (ahead s) := fun a b => by
  cases s
  · exact inferInstanceAs (Decidable (b < a))
  · exact inferInstanceAs (Decidable (a < b))

instance (s : Side) : IsTrans Int (ahead s) := ⟨fun a b c => by
  cases s <;> simp only [ahead] <;> omega⟩

instance (s : Side) : Std.Irrefl (ahead s) := ⟨fun a => by cases s <;> simp [ahead]⟩

instance (s : Side) : Std.Trichotomous (ahead s) := ⟨fun a b => by
  cases s <;> simp only [ahead] <;> omega⟩

abbrev PriceMap (s : Side) := OrderedMap Int Level (ahead s)

/-- Where an order rests. -/
structure Location where
  side : Side
  price : Int
  it : Nat
  deriving DecidableEq, Repr

structure MapBookEngine where
  bids : PriceMap .bid := .empty
  asks : PriceMap .ask := .empty
  index : OrderId → Option Location := fun _ => none
  /-- Address of the next list node. -/
  nextNode : Nat := 0

namespace MapBookEngine

/-- The map of one side. -/
def book (m : MapBookEngine) : (s : Side) → PriceMap s
  | .bid => m.bids
  | .ask => m.asks

def setBook (m : MapBookEngine) : (s : Side) → PriceMap s → MapBookEngine
  | .bid, b => { m with bids := b }
  | .ask, b => { m with asks := b }

/-! ## Matching -/

/-- Variables of the matching loops. -/
structure MatchState where
  engine : MapBookEngine
  remaining : Quantity
  fills : UInt64

/-- The test of the inner loop. -/
def queueOpen (s : Side) (lvl : Int) (t : MatchState) : Bool :=
  decide (0 < t.remaining) &&
    match (t.engine.book s).find? lvl with
    | some (_ :: _) => true
    | _ => false

/-- Execute part or all of the front order of a level. Once nothing is left of it, it leaves
the index and the queue. -/
def reduceTop (m : MapBookEngine) (s : Side) (lvl : Int) (top : RestingOrder) (queue : Level)
    (executed : Quantity) : MapBookEngine :=
  let top := { top with qty := top.qty - executed }
  if top.qty = 0 then
    { m.setBook s ((m.book s).set lvl queue) with
      index := Function.update m.index top.id none }
  else m.setBook s ((m.book s).set lvl (top :: queue))

/-- The body of the inner loop: execute against the front of the queue. -/
def fillTop (s : Side) (lvl : Int) (t : MatchState) : Option MatchState :=
  match (t.engine.book s).find? lvl with
  | some (top :: queue) =>
    let executed := min t.remaining top.qty
    some
      { engine := t.engine.reduceTop s lvl top queue executed
        remaining := t.remaining - executed
        fills := t.fills + 1 }
  | _ => none

/-- The test of the outer loop: quantity left, and a best level that crosses. -/
def crossing (s : Side) (crosses : Int → Bool) (t : MatchState) : Bool :=
  decide (0 < t.remaining) &&
    match (t.engine.book s).first? with
    | some lvl => crosses lvl.1
    | none => false

/-- The body of the outer loop: fill at the best level and drop it if that empties it. -/
def fillFirst (s : Side) (t : MatchState) : Option MatchState :=
  match (t.engine.book s).first? with
  | some lvl =>
    (loop (queueOpen s lvl.1) (fillTop s lvl.1) t.remaining.toNat t).map fun t =>
      if (t.engine.book s).find? lvl.1 = some [] then
        { t with engine := t.engine.setBook s ((t.engine.book s).erase lvl.1) }
      else t
  | none => none

/-- `match` against the book of side `s`. -/
def matchBook (s : Side) (crosses : Int → Bool) (t : MatchState) : Option MatchState :=
  loop (crossing s crosses) (fillFirst s) t.remaining.toNat t

/-! ## Messages -/

/-- Append a remainder to its level; an id that is already indexed keeps its location. -/
def rest (m : MapBookEngine) (msg : NewOrderMessage) (remaining : Quantity) : MapBookEngine :=
  let b := m.book msg.side
  let level := (b.find? msg.price).getD [] ++ [⟨m.nextNode, msg.id, remaining⟩]
  let m' := m.setBook msg.side (b.set msg.price level)
  { m' with
    index := Function.update m.index msg.id
      (some ((m.index msg.id).getD ⟨msg.side, msg.price, m.nextNode⟩))
    nextNode := m.nextNode + 1 }

def handleNewOrder (m : MapBookEngine) (msg : NewOrderMessage) :
    Option (MapBookEngine × UInt64) :=
  let isMarket := decide (msg.type = .market)
  let matched := match msg.side with
    | .bid => matchBook .ask (fun lvl => isMarket || decide (lvl ≤ msg.price))
        ⟨m, msg.quantity, 0⟩
    | .ask => matchBook .bid (fun lvl => isMarket || decide (msg.price ≤ lvl))
        ⟨m, msg.quantity, 0⟩
  matched.map fun t =>
    (if decide (0 < t.remaining) && !isMarket then t.engine.rest msg t.remaining else t.engine,
      t.fills)

/-- Erase a node through its iterator, and the level if that empties it. -/
def eraseFrom (m : MapBookEngine) (s : Side) (loc : Location) : Option MapBookEngine :=
  ((m.book s).find? loc.price).bind fun level =>
    if level.any (·.node = loc.it) then
      let level := level.filter (·.node ≠ loc.it)
      some (m.setBook s (if level = [] then (m.book s).erase loc.price
        else (m.book s).set loc.price level))
    else none

def handleCancel (m : MapBookEngine) (msg : CancelMessage) : Option (MapBookEngine × UInt64) :=
  match m.index msg.id with
  | none => some (m, 0)
  | some loc =>
    (match loc.side with
    | .bid => m.eraseFrom .bid loc
    | .ask => m.eraseFrom .ask loc).map fun (m' : MapBookEngine) =>
      ({ m' with index := Function.update m'.index msg.id none }, 0)

/-- Returns the number of fills. -/
def process (m : MapBookEngine) : EngineMessage → Option (MapBookEngine × UInt64)
  | .newOrder msg => m.handleNewOrder msg
  | .cancel msg => m.handleCancel msg

def run (m : MapBookEngine) : List EngineMessage → Option MapBookEngine
  | [] => some m
  | msg :: msgs => (m.process msg).bind fun r => run r.1 msgs

/-- Orders of one side at one price, oldest first. -/
def queue (m : MapBookEngine) (s : Side) (p : Int) : Level := ((m.book s).find? p).getD []

/-- Number of resting orders. -/
def size (m : MapBookEngine) : Nat :=
  (m.bids.entries.map (·.2.length)).sum + (m.asks.entries.map (·.2.length)).sum

/-! ## Fields of updates -/

@[simp] theorem book_setBook_self (m : MapBookEngine) (s : Side) (b : PriceMap s) :
    (m.setBook s b).book s = b := by cases s <;> rfl

theorem book_setBook_of_ne (m : MapBookEngine) {s t : Side} (h : t ≠ s) (b : PriceMap s) :
    (m.setBook s b).book t = m.book t := by
  cases s <;> cases t <;> first | rfl | exact absurd rfl h

@[simp] theorem index_setBook (m : MapBookEngine) (s : Side) (b : PriceMap s) :
    (m.setBook s b).index = m.index := by cases s <;> rfl

@[simp] theorem nextNode_setBook (m : MapBookEngine) (s : Side) (b : PriceMap s) :
    (m.setBook s b).nextNode = m.nextNode := by cases s <;> rfl

end MapBookEngine

end LockfreeMatching
